import PrismProxy.ForwardTransparency

/-! # Hop-by-hop headers

What HTTP/1.1 means by them is a fixed list and, in each message, the names its `Connection`
headers list. The proxy strips a list of its own. -/
namespace HopByHop

open TransitionRuns HttpMessage ForwardTransparency
open UpstreamForward (Call hopByHop stripHopByHop upstreamHeaders buildRequest)

def http11HopByHop : List String :=
  ["connection", "keep-alive", "proxy-authenticate", "proxy-authorization", "te", "trailer",
    "transfer-encoding", "upgrade"]

def isOws (c : Char) : Bool := c == ' ' || c == '\t'

def trimOws (s : List Char) : List Char := ((s.dropWhile isOws).reverse.dropWhile isOws).reverse

/-- The elements of a comma-separated list, in lower case as names are compared. -/
def tokens (value : String) : List String :=
  ((value.toList.splitOn ',').map fun t => String.ofList ((trimOws t).map Char.toLower)).filter
    (· ≠ "")

def connectionTokens (h : HeaderMap) : List String := (h.values "connection").flatMap tokens

def IsHopByHop (message : HeaderMap) (name : String) : Prop :=
  name ∈ http11HopByHop ∨ name ∈ connectionTokens message

/-- Nothing of what is hop-by-hop in the message is passed on. -/
def Filtered (message sent : HeaderMap) : Prop :=
  ∀ name, IsHopByHop message name → sent.values name = []

/-- The message has no `Trailer`, and of the headers it has its `Connection` headers name only
such as the proxy strips anyway. -/
structure Strippable (message : HeaderMap) : Prop where
  trailer : message.values "trailer" = []
  listed : ∀ name ∈ connectionTokens message, message.values name ≠ [] → name ∈ hopByHop

def setByProxy (call : Call) : List String :=
  ["x-forwarded-for", "x-forwarded-proto"] ++
    if call.hostParses || (call.req.headers.get "host").isSome then ["host", "x-forwarded-host"]
    else []

theorem mem_hopByHop {name : String} (h : name ∈ http11HopByHop) :
    name ∈ hopByHop ∨ name = "trailer" := by
  simp only [http11HopByHop, List.mem_cons, List.not_mem_nil, or_false] at h
  rcases h with rfl | rfl | rfl | rfl | rfl | rfl | rfl | rfl <;> decide

theorem filtered_strip_iff (message : HeaderMap) :
    Filtered message (stripHopByHop message) ↔ Strippable message := by
  constructor
  · intro h
    refine ⟨?_, ?_⟩
    · have htrailer := h "trailer" (Or.inl (by decide))
      rwa [values_stripHopByHop, if_neg (by decide)] at htrailer
    · intro name hlisted hpresent
      have hgone := h name (Or.inr hlisted)
      rw [values_stripHopByHop] at hgone
      by_contra hno
      rw [if_neg hno] at hgone
      exact hpresent hgone
  · rintro h name (hfixed | hlisted)
    · rw [values_stripHopByHop]
      rcases mem_hopByHop hfixed with hm | rfl
      · rw [if_pos hm]
      · rw [if_neg (by decide), h.trailer]
    · rw [values_stripHopByHop]
      split_ifs with hm
      · rfl
      · by_contra hpresent
        exact hm (h.listed name hlisted hpresent)

theorem forwardedHost_isSome (call : Call) : ((forwardedHeaders call).get "host").isSome =
    (call.hostParses || (call.req.headers.get "host").isSome) := by
  rw [forwardedHeaders_host]
  cases call.hostParses <;> rfl

theorem values_set {call : Call} {name : String} (h : name ∈ setByProxy call) :
    (upstreamHeaders call).values name ≠ [] := by
  have hhosts : name ∈ ["host", "x-forwarded-host"] →
      ((forwardedHeaders call).get "host").isSome → (upstreamHeaders call).values name ≠ [] := by
    intro hname hsome
    obtain ⟨host, hget⟩ := Option.isSome_iff_exists.mp hsome
    simp only [List.mem_cons, List.not_mem_nil, or_false] at hname
    rcases hname with rfl | rfl
    · rw [values_upstreamHeaders call (by decide)]
      intro hnil
      rw [HeaderMap.get, hnil] at hget
      cases hget
    · rw [values_forwardedHost, hget]
      simp
  unfold setByProxy at h
  rw [← forwardedHost_isSome] at h
  rcases List.mem_append.mp h with hfixed | hhost
  · simp only [List.mem_cons, List.not_mem_nil, or_false] at hfixed
    rcases hfixed with rfl | rfl
    · rw [values_upstreamHeaders call (by decide), values_forwardedHeaders]
      simp
    · rw [values_upstreamHeaders call (by decide), values_forwardedHeaders]
      simp
  · split_ifs at hhost with hsome
    · exact hhosts hhost hsome
    · cases hhost

theorem values_unset {call : Call} {name : String} (h : name ∉ setByProxy call) :
    (upstreamHeaders call).values name = (stripHopByHop call.req.headers).values name := by
  unfold setByProxy at h
  rw [← forwardedHost_isSome, List.mem_append, not_or] at h
  obtain ⟨hfixed, hhost⟩ := h
  simp only [List.mem_cons, List.not_mem_nil, or_false, not_or] at hfixed
  have hread := forwardedHeaders_host call
  cases hget : (forwardedHeaders call).get "host" with
  | none =>
    have hno : call.hostParses = false := by
      cases hp : call.hostParses with
      | false => rfl
      | true =>
        rw [hget, hp] at hread
        cases hread
    rw [upstreamHeaders_eq, hget, Option.elim_none, values_forwardedHeaders, if_neg hfixed.2,
      if_neg hfixed.1, if_neg (by simp [hno])]
  | some host =>
    rw [hget] at hhost
    simp only [Option.isSome_some, if_true, List.mem_cons, List.not_mem_nil, or_false,
      not_or] at hhost
    rw [values_upstreamHeaders call hhost.2, values_forwardedHeaders, if_neg hfixed.2,
      if_neg hfixed.1, if_neg fun h => hhost.1 h.1]

theorem fixed_unset {call : Call} {name : String} (h : name ∈ http11HopByHop) :
    name ∉ setByProxy call := by
  have hnames : ∀ name ∈ http11HopByHop,
      name ∉ ["x-forwarded-for", "x-forwarded-proto", "host", "x-forwarded-host"] := by decide
  intro hset
  apply hnames name h
  unfold setByProxy at hset
  split_ifs at hset
  · exact hset
  · rw [List.append_nil] at hset
    exact List.mem_append_left ["host", "x-forwarded-host"] hset

/-- The request is filtered exactly when stripping filters it and no name it lists is one the
proxy sets. -/
theorem filtered_upstream_iff (call : Call) :
    Filtered call.req.headers (upstreamHeaders call) ↔ Strippable call.req.headers ∧
      ∀ name ∈ setByProxy call, name ∉ connectionTokens call.req.headers := by
  rw [← filtered_strip_iff]
  constructor
  · intro h
    have hunlisted : ∀ name ∈ setByProxy call, name ∉ connectionTokens call.req.headers :=
      fun name hset hlisted => values_set hset (h name (Or.inr hlisted))
    refine ⟨?_, hunlisted⟩
    intro name hname
    have hunset : name ∉ setByProxy call := hname.elim fixed_unset fun hl hs => hunlisted _ hs hl
    rw [← values_unset hunset]
    exact h name hname
  · rintro ⟨h, hunlisted⟩ name hname
    have hunset : name ∉ setByProxy call := hname.elim fixed_unset fun hl hs => hunlisted _ hs hl
    rw [values_unset hunset]
    exact h name hname

/-- What is sent upstream and what is returned to the client, for every request and every
response. -/
theorem filtered_iff (call : Call) (resp : HeaderMap) :
    Filtered call.req.headers (buildRequest call).headers ∧ Filtered resp (stripHopByHop resp) ↔
      Strippable call.req.headers ∧
        (∀ name ∈ setByProxy call, name ∉ connectionTokens call.req.headers) ∧
        Strippable resp := by
  have hrequest : Filtered call.req.headers (buildRequest call).headers ↔ _ :=
    filtered_upstream_iff call
  rw [hrequest, filtered_strip_iff, and_assoc]

/-- A header the client's connection lists goes upstream, and a trailer announced by the
upstream to the client. -/
def leakingCall : Call :=
  ⟨⟨"GET", .origin "/" none,
    [("host", "shop.example"), ("connection", "Close, X-Hop"), ("x-hop", "1")], []⟩,
    "127.0.0.1:3000", true, 30000, "10.0.0.7", false⟩

def leakingResponse : HeaderMap := [("trailer", "expires"), ("content-type", "text/plain")]

theorem hopByHop_leaks : ¬ Filtered leakingCall.req.headers (buildRequest leakingCall).headers ∧
    ¬ Filtered leakingResponse (stripHopByHop leakingResponse) := by
  constructor
  · intro h
    have hgone := h "x-hop" (Or.inr (by decide))
    exact absurd hgone (by decide)
  · intro h
    have hgone := h "trailer" (Or.inl (by decide))
    exact absurd hgone (by decide)

theorem delivered_filtered {calls : ℕ → Call} {maxIdlePerHost : ℕ}
    {tr : List (UpstreamForward.State × UpstreamForward.Event)} {u : UpstreamForward.State}
    (h : Run (UpstreamForward.next calls) (UpstreamForward.boot maxIdlePerHost) tr u)
    (hs : ∀ i, Strippable (calls i).req.headers)
    (hunlisted : ∀ i, ∀ name ∈ setByProxy (calls i),
      name ∉ connectionTokens (calls i).req.headers) :
    ∀ d ∈ u.delivered, Filtered (calls d.call).req.headers d.req.headers := by
  have hupholds : Upholds (fun i req => Filtered (calls i).req.headers req.headers) u := by
    refine h.invariant (fun _ _ _ ht hn => upholds_step ht ?_ (UpstreamForward.step_of_next hn)) ?_
    · exact fun i => (filtered_upstream_iff (calls i)).mpr ⟨hs i, hunlisted i⟩
    · exact ⟨by simp [UpstreamForward.boot, carries], by simp [UpstreamForward.boot],
        by simp [UpstreamForward.boot]⟩
  exact hupholds.delivered

example : tokens " Close ,X-Hop,, te\t" = ["close", "x-hop", "te"] := by decide

end HopByHop
