import PrismProxy.SocketAddrParser

/-! # The text of a socket address

What a reader of the address syntax takes off its input is over a small alphabet: digits and
the punctuation of its own. So an address that parses is visible ASCII, and can be told apart
from what surrounds it. -/
namespace SocketAddrText

open SocketAddrParser

variable {α β : Type} {P : Char → Prop} {s t u : List Char}

def Visible (c : Char) : Prop := 32 ≤ c.toNat ∧ c.toNat < 127

instance (c : Char) : Decidable (Visible c) :=
  inferInstanceAs (Decidable (32 ≤ c.toNat ∧ c.toNat < 127))

def Leaves (P : Char → Prop) (s t : List Char) : Prop := ∃ taken, s = taken ++ t ∧ ∀ c ∈ taken, P c

theorem Leaves.refl (s : List Char) : Leaves P s s := ⟨[], rfl, by simp⟩

theorem Leaves.trans (h : Leaves P s t) (k : Leaves P t u) : Leaves P s u := by
  obtain ⟨a, rfl, ha⟩ := h
  obtain ⟨b, rfl, hb⟩ := k
  refine ⟨a ++ b, (List.append_assoc ..).symm, ?_⟩
  intro c hc
  rcases List.mem_append.mp hc with hc | hc
  · exact ha c hc
  · exact hb c hc

theorem leaves_cons {c : Char} (h : P c) (s : List Char) : Leaves P (c :: s) s :=
  ⟨[c], rfl, by simpa using h⟩

theorem Leaves.mem {c : Char} (h : Leaves P s t) (hc : c ∈ t) : c ∈ s := by
  obtain ⟨taken, rfl, _⟩ := h
  exact List.mem_append_right taken hc

theorem Leaves.all (h : Leaves P s []) : ∀ c ∈ s, P c := by
  obtain ⟨taken, rfl, htaken⟩ := h
  simpa using htaken

def Takes (P : Char → Prop) (r : Reader α) : Prop := ∀ s a t, r s = some (a, t) → Leaves P s t

theorem Takes.bind {r : Reader α} {k : α × List Char → Option (β × List Char)} (hr : Takes P r)
    (hk : ∀ a, Takes P fun s => k (a, s)) : Takes P fun s => (r s).bind k := by
  intro s b u h
  obtain ⟨⟨a, t⟩, ha, hb⟩ := Option.bind_eq_some_iff.mp h
  exact (hr s a t ha).trans (hk a t b u hb)

theorem Takes.map {r : Reader α} (hr : Takes P r) (f : α → β) :
    Takes P fun s => (r s).map fun p => (f p.1, p.2) := by
  intro s b u h
  obtain ⟨⟨a, t⟩, ha, hb⟩ := Option.map_eq_some_iff.mp h
  cases hb
  exact hr s a t ha

def HasDigits (P : Char → Prop) : Prop :=
  ∀ radix ≤ 16, ∀ c d, toDigit radix c = some d → P c

theorem givenChar_eq {c : Char} {a : Unit} (h : readGivenChar c s = some (a, t)) :
    s = c :: t := by
  cases s with
  | nil => cases h
  | cons d rest =>
    simp only [readGivenChar] at h
    split_ifs at h with hd
    cases h
    rw [hd]

theorem takes_givenChar {c : Char} (h : P c) : Takes P (readGivenChar c) := by
  intro s a t hs
  rw [givenChar_eq hs]
  exact leaves_cons h t

theorem readSeparator_of_ne {sep : Char} {i : ℕ} (h : i ≠ 0) (inner : Reader α) :
    readSeparator sep i inner = fun s => (readGivenChar sep s).bind fun r => inner r.2 := by
  funext s
  rw [readSeparator, if_neg h]

theorem takes_separator {sep : Char} (h : P sep) (i : ℕ) {inner : Reader α}
    (hi : Takes P inner) : Takes P (readSeparator sep i inner) := by
  by_cases h0 : i = 0
  · have hsame : readSeparator sep i inner = inner := by
      funext s
      rw [readSeparator, if_pos h0]
    rwa [hsame]
  · rw [readSeparator_of_ne h0]
    exact (takes_givenChar h).bind fun _ => hi

theorem visible_of_digit {radix d : ℕ} {c : Char} (h : toDigit radix c = some d) : Visible c := by
  unfold toDigit at h
  obtain ⟨h, _⟩ := Option.filter_eq_some_iff.mp h
  unfold Visible
  split_ifs at h <;> omega

theorem hasDigits_visible : HasDigits Visible := fun _ _ _ _ h => visible_of_digit h

theorem leaves_digits (hd : HasDigits P) {radix : ℕ} (hr : radix ≤ 16) (s : List Char) :
    Leaves P s (takeDigits radix s).2 := by
  induction s with
  | nil => exact .refl []
  | cons c rest ih =>
    unfold takeDigits
    split
    · rename_i d hdigit
      exact (leaves_cons (hd radix hr c d hdigit) rest).trans ih
    · exact .refl _

theorem takes_number (hd : HasDigits P) {radix : ℕ} (hr : radix ≤ 16) (maxDigits : Option ℕ)
    (allowZeroPrefix : Bool) (bound : ℕ) :
    Takes P (readNumber radix maxDigits allowZeroPrefix bound) := by
  intro s n t h
  have hleaves := leaves_digits hd hr s
  unfold readNumber at h
  split at h
  rename_i ds rest heq
  rw [heq] at hleaves
  split_ifs at h
  cases h
  exact hleaves

theorem takes_octets (hd : HasDigits P) (hdot : P '.') (n i : ℕ) : Takes P (readOctets n i) := by
  induction n generalizing i with
  | zero =>
    intro s a t h
    cases h
    exact .refl s
  | succ n ih =>
    have hone : Takes P (readSeparator '.' i (readNumber 10 (some 3) false 256)) :=
      takes_separator hdot i (takes_number hd (by omega) _ _ _)
    exact hone.bind fun a => (ih (i + 1)).map fun q => a :: q

theorem takes_ipv4Addr (hd : HasDigits P) (hdot : P '.') : Takes P readIpv4Addr :=
  takes_octets hd hdot 4 0

theorem leaves_groups (hd : HasDigits P) (hdot : P '.') (hcolon : P ':') (n i : ℕ)
    (s : List Char) : Leaves P s (readGroups n i s).2 := by
  induction n generalizing i s with
  | zero => exact .refl s
  | succ n ih =>
    unfold readGroups
    split
    · rename_i a b c d rest hv4
      split_ifs at hv4
      exact takes_separator hcolon i (takes_ipv4Addr hd hdot) s _ _ hv4
    · split
      · rename_i g rest hg
        have hgroup := takes_separator hcolon i (takes_number hd (by omega) _ _ _) s _ _ hg
        exact hgroup.trans (ih (i + 1) rest)
      · exact .refl s

theorem takes_ipv6Addr (hd : HasDigits P) (hdot : P '.') (hcolon : P ':') :
    Takes P readIpv6Addr := by
  intro s groups t h
  have hhead := leaves_groups hd hdot hcolon 8 0 s
  unfold readIpv6Addr at h
  split at h
  rename_i head headIpv4 rest heq
  rw [heq] at hhead
  split_ifs at h with hfull hv4
  · cases h
    exact hhead
  · obtain ⟨⟨_, s₁⟩, h₁, h⟩ := Option.bind_eq_some_iff.mp h
    obtain ⟨⟨_, s₂⟩, h₂, h⟩ := Option.bind_eq_some_iff.mp h
    have htail := leaves_groups hd hdot hcolon (8 - (head.length + 1)) 0 s₂
    have hcolons := (takes_givenChar hcolon _ _ _ h₁).trans (takes_givenChar hcolon _ _ _ h₂)
    cases h
    exact hhead.trans (hcolons.trans htail)

theorem separator_eq {sep : Char} {i : ℕ} {inner : Reader α} {a : α} (hi : i ≠ 0)
    (h : readSeparator sep i inner s = some (a, t)) : sep ∈ s := by
  rw [readSeparator_of_ne hi] at h
  obtain ⟨⟨_, rest⟩, hc, _⟩ := Option.bind_eq_some_iff.mp h
  rw [givenChar_eq hc]
  exact List.mem_cons_self

theorem colon_of_group {n i : ℕ} (hi : i ≠ 0) (h : (readGroups n i s).1.1 ≠ []) : ':' ∈ s := by
  cases n with
  | zero => exact absurd rfl h
  | succ n =>
    unfold readGroups at h
    split at h
    · rename_i a b c d rest hv4
      split_ifs at hv4
      exact separator_eq hi hv4
    · split at h
      · rename_i g rest hg
        exact separator_eq hi hg
      · exact absurd rfl h

theorem colon_of_groups {n : ℕ} (h : 2 < (readGroups n 0 s).1.1.length) : ':' ∈ s := by
  cases n with
  | zero => simp [readGroups] at h
  | succ n =>
    unfold readGroups at h
    split at h
    · simp at h
    · split at h
      · rename_i g rest hg
        have hmore : (readGroups n 1 rest).1.1 ≠ [] := by
          intro hnil
          simp [hnil] at h
        have htaken := takes_number (P := fun _ => True) (fun _ _ _ _ _ => trivial)
          (by omega) (some 4) true 65536 s g rest hg
        exact htaken.mem (colon_of_group (by omega) hmore)
      · simp at h

theorem colon_of_ipv6Addr {groups : List ℕ} (h : readIpv6Addr s = some (groups, t)) :
    ':' ∈ s := by
  have hhead := leaves_groups (P := fun _ => True) (fun _ _ _ _ _ => trivial) trivial trivial 8 0 s
  unfold readIpv6Addr at h
  split at h
  rename_i head headIpv4 rest heq
  rw [heq] at hhead
  split_ifs at h with hfull hv4
  · exact colon_of_groups (n := 8) (by rw [heq]; simp only; omega)
  · obtain ⟨⟨_, s₁⟩, h₁, _⟩ := Option.bind_eq_some_iff.mp h
    rw [givenChar_eq h₁] at hhead
    exact hhead.mem List.mem_cons_self

theorem takes_port (hd : HasDigits P) (hcolon : P ':') : Takes P readPort :=
  (takes_givenChar hcolon).bind fun _ => takes_number hd (by omega) _ _ _

theorem takes_scopeId (hd : HasDigits P) (hpercent : P '%') : Takes P readScopeId :=
  (takes_givenChar hpercent).bind fun _ => takes_number hd (by omega) _ _ _

theorem leaves_scope (hd : HasDigits P) (hpercent : P '%') (s : List Char) :
    Leaves P s ((readScopeId s).getD (0, s)).2 := by
  cases h : readScopeId s with
  | none => exact .refl s
  | some r => exact takes_scopeId hd hpercent s r.1 r.2 h

theorem visible_socketAddrV4 : Takes Visible readSocketAddrV4 :=
  (takes_ipv4Addr hasDigits_visible (by decide)).bind fun ip =>
    (takes_port hasDigits_visible (by decide)).map fun port => SocketAddr.v4 ip port

theorem visible_socketAddrV6 : Takes Visible readSocketAddrV6 := by
  have hport : Takes Visible readPort := takes_port hasDigits_visible (by decide)
  have hclose : Takes Visible (readGivenChar ']') := takes_givenChar (by decide)
  have hip : Takes Visible readIpv6Addr :=
    takes_ipv6Addr hasDigits_visible (by decide) (by decide)
  refine (takes_givenChar (by decide)).bind fun _ => hip.bind fun ip => ?_
  intro s addr t h
  obtain ⟨⟨_, s₁⟩, h₁, h⟩ := Option.bind_eq_some_iff.mp h
  have hport := hport.map fun port => SocketAddr.v6 ip ((readScopeId s).getD (0, s)).1 port
  have hscope := leaves_scope hasDigits_visible (by decide) s
  exact hscope.trans ((hclose _ _ _ h₁).trans (hport _ _ _ h))

theorem parseSocketAddr_visible {text : String} {addr : SocketAddr}
    (h : parseSocketAddr text = .ok addr) : ∀ c ∈ text.toList, Visible c := by
  have hread : ∃ a, readSocketAddr text.toList = some (a, []) := by
    unfold parseSocketAddr at h
    split at h
    · rename_i a hr
      exact ⟨a, hr⟩
    · cases h
  obtain ⟨a, hr⟩ := hread
  have htakes : Leaves Visible text.toList [] := by
    rcases Option.or_eq_some_iff.mp hr with hv4 | ⟨_, hv6⟩
    · exact visible_socketAddrV4 _ _ _ hv4
    · exact visible_socketAddrV6 _ _ _ hv6
  exact htakes.all

end SocketAddrText
