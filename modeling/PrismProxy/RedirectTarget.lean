import Mathlib.Data.List.TakeWhile
import PrismProxy.ChallengeResponders
import PrismProxy.SocketAddrText

/-! # Where the redirect server sends a client

A request target in absolute form keeps its scheme and its authority in the `Uri`, and the
server appends the `Uri` as it is displayed. The host is the `Host` header up to a colon. -/
namespace RedirectTarget

open AcmeProvision (ChallengeMap)
open HttpMessage ChallengeResponders SocketAddrParser SocketAddrText

inductive Target where
  | origin (path : String) (query : Option String)
  | absolute (scheme authority path : String) (query : Option String)
  deriving DecidableEq

def Target.uri : Target → Uri
  | .origin path query => .origin path query
  | .absolute scheme authority path query => ⟨some scheme, some authority, path, query⟩

def Target.isOrigin : Target → Bool
  | .origin _ _ => true
  | .absolute _ _ _ _ => false

def Target.lead : Target → String
  | .origin _ _ => ""
  | .absolute scheme authority _ _ => scheme ++ "://" ++ authority

theorem display_eq (target : Target) :
    displayUri target.uri = target.lead ++ pathAndQuery target.uri := by
  cases target with
  | origin path query =>
    have hnone : displayUri (Uri.origin path query) =
        "" ++ "" ++ pathAndQuery (Uri.origin path query) := rfl
    simpa only [Target.uri, Target.lead, String.empty_append] using hnone
  | absolute scheme authority path query => rfl

def alphanumeric (c : Char) : Bool := (toDigit 36 c).isSome

def hexDigit (c : Char) : Bool := (toDigit 16 c).isSome

def nameChar (c : Char) : Bool := alphanumeric c || "-._~!$&'()*+,;=".toList.contains c

/-- A registered name: such characters and bytes in percent encoding. -/
def registeredName : List Char → Bool
  | [] => true
  | '%' :: a :: b :: rest => hexDigit a && hexDigit b && registeredName rest
  | c :: rest => nameChar c && registeredName rest

/-- The host of an authority. An IPv4 address is written like a registered name. -/
inductive Host where
  | name (text : String) (valid : registeredName text.toList = true)
  | ipv6 (text : String) (groups : List ℕ) (valid : readIpv6Addr text.toList = some (groups, []))

def Host.text : Host → String
  | .name text _ => text
  | .ipv6 text _ _ => "[" ++ text ++ "]"

def Host.isName : Host → Bool
  | .name _ _ => true
  | .ipv6 _ _ _ => false

structure Authority where
  host : Host
  port : Option String
  digits : ∀ p, port = some p → (p.toList.all fun c => (toDigit 10 c).isSome) = true

def Authority.text (a : Authority) : String := a.host.text ++ a.port.elim "" fun p => ":" ++ p

def portSuffix (httpsPort : ℕ) : String := if httpsPort = 443 then "" else ":" ++ toString httpsPort

/-- `https` on the host without its port, the port unless it is the default one, and the path
and the query of the target. -/
def intended (httpsPort : ℕ) (a : Authority) (target : Target) : String :=
  "https://" ++ a.host.text ++ portSuffix httpsPort ++ pathAndQuery target.uri

def Inner (c : Char) : Prop := Visible c ∧ c ≠ ':' ∧ c ≠ '/'

theorem inner_nameChar {c : Char} (h : nameChar c = true) : Inner c := by
  refine ⟨?_, ?_, ?_⟩
  · rcases Bool.or_eq_true_iff.mp h with hdigit | hmark
    · obtain ⟨d, hd⟩ := Option.isSome_iff_exists.mp hdigit
      exact visible_of_digit hd
    · have hmarks : ("-._~!$&'()*+,;=".toList.all fun c => decide (Visible c)) = true := by decide
      simpa using List.all_eq_true.mp hmarks c (List.elem_iff.mp hmark)
  · rintro rfl
    revert h
    decide
  · rintro rfl
    revert h
    decide

theorem nameChar_of_digit : HasDigits fun c => nameChar c = true := by
  intro radix hr c d h
  unfold toDigit at h
  obtain ⟨hd, hlt⟩ := Option.filter_eq_some_iff.mp h
  have hlt : d < radix := by simpa using hlt
  have h36 : toDigit 36 c = some d := Option.filter_eq_some_iff.mpr ⟨hd, by simp; omega⟩
  simp [nameChar, alphanumeric, h36]

theorem inner_registeredName {cs : List Char} (h : registeredName cs = true) :
    ∀ c ∈ cs, Inner c := by
  fun_induction registeredName cs with
  | case1 => simp
  | case2 a b rest ih =>
    simp only [Bool.and_eq_true] at h
    obtain ⟨⟨ha, hb⟩, hrest⟩ := h
    have hdigit : ∀ {c}, hexDigit c = true → Inner c := by
      intro c hc
      obtain ⟨d, hd⟩ := Option.isSome_iff_exists.mp hc
      exact inner_nameChar (nameChar_of_digit 16 (le_refl _) c d hd)
    intro c hc
    simp only [List.mem_cons] at hc
    rcases hc with rfl | rfl | rfl | hc
    · exact ⟨by decide, by decide, by decide⟩
    · exact hdigit ha
    · exact hdigit hb
    · exact ih hrest c hc
  | case3 c rest _ ih =>
    obtain ⟨hname, hrest⟩ := Bool.and_eq_true_iff.mp h
    intro d hd
    rcases List.mem_cons.mp hd with rfl | hd
    · exact inner_nameChar hname
    · exact ih hrest d hd

theorem registeredName_ipv4 {cs : List Char} {octets : List ℕ}
    (h : readIpv4Addr cs = some (octets, [])) : registeredName cs = true := by
  have hall : ∀ c ∈ cs, nameChar c = true :=
    (takes_ipv4Addr nameChar_of_digit (by decide) cs octets [] h).all
  clear h
  fun_induction registeredName cs with
  | case1 => rfl
  | case2 a b rest ih => exact absurd (hall '%' List.mem_cons_self) (by decide)
  | case3 c rest _ ih =>
    have hrest := ih fun d hd => hall d (List.mem_cons_of_mem c hd)
    rw [hall c List.mem_cons_self, hrest]
    rfl

theorem visible_ipv6 {cs : List Char} {groups : List ℕ}
    (h : readIpv6Addr cs = some (groups, [])) : ∀ c ∈ cs, Visible c ∧ c ≠ '/' := by
  have hdigits : HasDigits fun c => Visible c ∧ c ≠ '/' := by
    intro radix hr c d hd
    refine ⟨visible_of_digit hd, ?_⟩
    rintro rfl
    simp [toDigit] at hd
  exact (takes_ipv6Addr hdigits (by decide) (by decide) cs groups [] h).all

theorem Host.visible (h : Host) : ∀ c ∈ h.text.toList, Visible c ∧ c ≠ '/' := by
  intro c hc
  cases h with
  | name text valid =>
    obtain ⟨hv, _, hslash⟩ := inner_registeredName valid c hc
    exact ⟨hv, hslash⟩
  | ipv6 text groups valid =>
    simp only [Host.text, String.toList_append, List.mem_append] at hc
    rcases hc with (hc | hc) | hc
    · rw [List.mem_singleton.mp hc]
      decide
    · exact visible_ipv6 valid c hc
    · rw [List.mem_singleton.mp hc]
      decide

theorem Authority.visible (a : Authority) : ∀ c ∈ a.text.toList, Visible c := by
  intro c hc
  rw [Authority.text, String.toList_append] at hc
  rcases List.mem_append.mp hc with hc | hc
  · exact (a.host.visible c hc).1
  · cases hp : a.port with
    | none =>
      rw [hp] at hc
      cases hc
    | some p =>
      rw [hp, Option.elim_some, String.toList_append] at hc
      rcases List.mem_append.mp hc with hc | hc
      · rw [List.mem_singleton.mp hc]
        decide
      · have hdigit := List.all_eq_true.mp (a.digits p hp) c hc
        obtain ⟨d, hd⟩ := Option.isSome_iff_exists.mp hdigit
        exact visible_of_digit hd

theorem takeWhile_append_stop {p : Char → Bool} (l : List Char) {r : List Char}
    (h : r.takeWhile p = []) : (l ++ r).takeWhile p = l.takeWhile p := by
  induction l with
  | nil => exact h
  | cons c l ih => rw [List.cons_append, List.takeWhile_cons, List.takeWhile_cons, ih]

theorem toStr_visible {text : String} (h : ∀ c ∈ text.toList, Visible c) :
    toStr text = some text := by
  unfold toStr
  rw [if_pos]
  rw [List.all_eq_true]
  intro c hc
  simp [h c hc |>.1, h c hc |>.2]

theorem redirectHost_eq {headers : HeaderMap} {a : Authority}
    (h : headers.get "host" = some a.text) :
    (redirectHost headers).toList = a.host.text.toList.takeWhile (· ≠ ':') := by
  have hport : (a.port.elim "" fun p => ":" ++ p).toList.takeWhile (· ≠ ':') = [] := by
    cases a.port with
    | none => rfl
    | some p => simp
  rw [redirectHost, h, Option.bind_some, toStr_visible a.visible, Option.map_some,
    Option.getD_some, String.toList_ofList, Authority.text, String.toList_append]
  exact takeWhile_append_stop _ hport

theorem location_eq (httpsPort : ℕ) (req : Request) :
    redirectLocation httpsPort req =
      "https://" ++ redirectHost req.headers ++ portSuffix httpsPort ++ displayUri req.uri := by
  unfold redirectLocation portSuffix
  split_ifs
  · rw [String.append_empty]
  · simp only [String.append_assoc]

theorem location_intended_iff (httpsPort : ℕ) (a : Authority) {target : Target} {req : Request}
    (huri : req.uri = target.uri) :
    redirectLocation httpsPort req = intended httpsPort a target ↔
      (redirectHost req.headers).toList ++ (portSuffix httpsPort).toList ++ target.lead.toList =
        a.host.text.toList ++ (portSuffix httpsPort).toList := by
  rw [location_eq, intended, huri, display_eq, ← String.toList_inj]
  simp only [String.toList_append, ← List.append_assoc, List.append_cancel_right_eq]
  simp only [List.append_assoc, List.append_cancel_left_eq]

theorem absolute_ne {httpsPort : ℕ} {a : Authority} {headers : HeaderMap} {target : Target}
    (ht : target.isOrigin = false) :
    (redirectHost headers).toList ++ (portSuffix httpsPort).toList ++ target.lead.toList ≠
      a.host.text.toList ++ (portSuffix httpsPort).toList := by
  intro heq
  have hcount := congrArg (List.count '/') heq
  have hhost : a.host.text.toList.count '/' = 0 := by
    rw [List.count_eq_zero]
    intro hc
    exact (a.host.visible '/' hc).2 rfl
  have hlead : 0 < target.lead.toList.count '/' := by
    rw [List.count_pos_iff]
    cases target with
    | origin path query => cases ht
    | absolute scheme authority path query => simp [Target.lead]
  simp only [List.count_append] at hcount
  omega

theorem Host.name_uncut {h : Host} (hn : h.isName = true) :
    h.text.toList.takeWhile (· ≠ ':') = h.text.toList := by
  cases h with
  | name text valid =>
    rw [List.takeWhile_eq_self_iff]
    intro c hc
    simpa using (inner_registeredName valid c hc).2.1
  | ipv6 text groups valid => cases hn

theorem Host.ipv6_cut {h : Host} (hn : h.isName = false) :
    (h.text.toList.takeWhile (· ≠ ':')).length < h.text.toList.length := by
  cases h with
  | name text valid => cases hn
  | ipv6 text groups valid =>
    have hcolon : ':' ∈ (Host.ipv6 text groups valid).text.toList := by
      simp [Host.text, colon_of_ipv6Addr valid]
    by_contra hle
    have hprefix := List.takeWhile_prefix (l := (Host.ipv6 text groups valid).text.toList)
      (· ≠ ':')
    rw [← hprefix.eq_of_length_le (by omega)] at hcolon
    simpa using List.mem_takeWhile_imp hcolon

theorem ipv6_ne (httpsPort : ℕ) {a : Authority} {headers : HeaderMap}
    (hhost : headers.get "host" = some a.text) (hn : a.host.isName = false) :
    (redirectHost headers).toList ++ (portSuffix httpsPort).toList ≠
      a.host.text.toList ++ (portSuffix httpsPort).toList := by
  intro heq
  have hlength := congrArg List.length heq
  have hcut := Host.ipv6_cut hn
  rw [redirectHost_eq hhost] at hlength
  simp only [List.length_append] at hlength
  omega

/-- The redirect is right exactly for hosts without a colon and targets in origin form. -/
theorem redirect_iff {httpsPort : ℕ} {challenges : ChallengeMap} {target : Target}
    {req : Request} {a : Authority} (huri : req.uri = target.uri)
    (hhost : req.headers.get "host" = some a.text)
    (hno : (stripPrefix req.uri.path challengePrefix).bind challenges = none) :
    redirectServer httpsPort challenges req =
        ⟨301, [("location", intended httpsPort a target)], []⟩ ↔
      a.host.isName = true ∧ target.isOrigin = true := by
  have hserve : redirectServer httpsPort challenges req =
      ⟨301, [("location", redirectLocation httpsPort req)], []⟩ := by
    simp only [redirectServer, hno]
  have hresponse : redirectServer httpsPort challenges req =
      ⟨301, [("location", intended httpsPort a target)], []⟩ ↔
        redirectLocation httpsPort req = intended httpsPort a target := by
    rw [hserve]
    simp
  rw [hresponse, location_intended_iff httpsPort a huri]
  cases ht : target.isOrigin with
  | false => simpa using absolute_ne ht
  | true =>
    have hlead : target.lead = "" := by
      cases target with
      | origin path query => rfl
      | absolute scheme authority path query => cases ht
    rw [hlead, String.toList_empty, List.append_nil]
    cases hn : a.host.isName with
    | false =>
      have hne := ipv6_ne httpsPort hhost hn
      simpa using hne
    | true =>
      rw [redirectHost_eq hhost, Host.name_uncut hn]
      simp

theorem redirect_iff_port : redirectServer 8443 AcmeProvision.noChallenges
    ⟨"GET", .origin "/a" (some "b=1"), [("host", "shop.example:8080")], []⟩ =
      ⟨301, [("location", "https://shop.example:8443/a?b=1")], []⟩ := by
  let a : Authority := ⟨.name "shop.example" (by decide), some "8080", by
    intro p hp
    cases hp
    decide⟩
  let req : Request := ⟨"GET", .origin "/a" (some "b=1"), [("host", "shop.example:8080")], []⟩
  have huri : req.uri = Target.uri (.origin "/a" (some "b=1")) := rfl
  have hhost : req.headers.get "host" = some a.text := by decide
  exact (redirect_iff huri hhost (by decide)).mpr ⟨rfl, rfl⟩

/-- `[::1]` is cut after its bracket. -/
theorem ipv6_redirected_wrong : ¬ ∀ (httpsPort : ℕ) (challenges : ChallengeMap) (target : Target)
    (req : Request) (a : Authority), req.uri = target.uri →
      req.headers.get "host" = some a.text →
      (stripPrefix req.uri.path challengePrefix).bind challenges = none →
        redirectServer httpsPort challenges req =
          ⟨301, [("location", intended httpsPort a target)], []⟩ := by
  intro hall
  let a : Authority := ⟨.ipv6 "::1" [0, 0, 0, 0, 0, 0, 0, 1] (by decide), none, by
    intro p hp
    cases hp⟩
  have hwrong := hall 443 AcmeProvision.noChallenges (.origin "/" none)
    ⟨"GET", .origin "/" none, [("host", "[::1]")], []⟩ a rfl (by decide) (by decide)
  revert hwrong
  decide

end RedirectTarget
