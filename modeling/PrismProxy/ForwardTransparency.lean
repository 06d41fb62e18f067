import PrismProxy.RequestServing

/-! # What forwarding leaves as it was

The request an upstream gets is the client's but for the names the proxy sets or strips, and
the response that answers it is the upstream's but for those it strips and the time it took.
Header maps are compared by the values of each name, in order. -/
namespace ForwardTransparency

open TransitionRuns HttpMessage RequestServing
open ProxyPlugin (Bytes)
open UpstreamForward (Call Head Act Moves CallStep hopByHop stripHopByHop upstreamHeaders
  buildRequest)

variable {arrivals : ℕ → Arrival} {hostParses : String → Bool}

def rewritten : List String := ["host", "x-forwarded-for", "x-forwarded-proto", "x-forwarded-host"]

structure Faithful (a : Arrival) (req : Request) : Prop where
  method : req.method = a.req.method
  uri : req.uri = a.req.uri
  body : req.body = a.req.body
  values : ∀ name, name ∉ hopByHop → name ∉ rewritten →
    req.headers.values name = a.req.headers.values name
  forwardedFor : req.headers.values "x-forwarded-for" = [a.clientIp]
  forwardedProto : req.headers.values "x-forwarded-proto" = [if a.isTls then "https" else "http"]
  stripped : ∀ name ∈ hopByHop, req.headers.values name = []

theorem values_removeAll (names : List String) (h : HeaderMap) (name : String) :
    (names.foldl HeaderMap.remove h).values name = if name ∈ names then [] else h.values name := by
  induction names generalizing h with
  | nil => simp
  | cons n names ih =>
    rw [List.foldl_cons, ih, HeaderMap.values_remove]
    by_cases hm : name ∈ names
    · simp [hm]
    · by_cases hn : name = n
      · simp [hn]
      · simp [hm, hn]

theorem values_stripHopByHop (h : HeaderMap) (name : String) :
    (stripHopByHop h).values name = if name ∈ hopByHop then [] else h.values name :=
  values_removeAll hopByHop h name

/-- The headers when `HOST` is read for `x-forwarded-host`. -/
def forwardedHeaders (call : Call) : HeaderMap :=
  let headers := stripHopByHop call.req.headers
  let headers := if call.hostParses then headers.insert "host" call.upstreamAddr else headers
  let headers := headers.insert "x-forwarded-for" call.clientIp
  headers.insert "x-forwarded-proto" (if call.isTls then "https" else "http")

theorem upstreamHeaders_eq (call : Call) : upstreamHeaders call =
    ((forwardedHeaders call).get "host").elim (forwardedHeaders call)
      ((forwardedHeaders call).insert "x-forwarded-host") := by
  unfold upstreamHeaders forwardedHeaders
  dsimp only
  split
  · rename_i host hget
    rw [hget]
    rfl
  · rename_i hget
    rw [hget]
    rfl

theorem values_forwardedHeaders (call : Call) (name : String) :
    (forwardedHeaders call).values name =
      if name = "x-forwarded-proto" then [if call.isTls then "https" else "http"]
      else if name = "x-forwarded-for" then [call.clientIp]
      else if name = "host" ∧ call.hostParses then [call.upstreamAddr]
      else (stripHopByHop call.req.headers).values name := by
  unfold forwardedHeaders
  dsimp only
  rw [HeaderMap.values_insert, HeaderMap.values_insert]
  cases call.hostParses with
  | false => simp
  | true => simp [HeaderMap.values_insert]

theorem forwardedHeaders_host (call : Call) : (forwardedHeaders call).get "host" =
    if call.hostParses then some call.upstreamAddr else call.req.headers.get "host" := by
  rw [HeaderMap.get, values_forwardedHeaders, if_neg (by decide), if_neg (by decide),
    values_stripHopByHop]
  cases call.hostParses <;> rfl

theorem values_upstreamHeaders (call : Call) {name : String} (hname : name ≠ "x-forwarded-host") :
    (upstreamHeaders call).values name = (forwardedHeaders call).values name := by
  rw [upstreamHeaders_eq]
  cases (forwardedHeaders call).get "host" with
  | none => rfl
  | some host => rw [Option.elim_some, HeaderMap.values_insert, if_neg hname]

theorem values_forwardedHost (call : Call) : (upstreamHeaders call).values "x-forwarded-host" =
    ((forwardedHeaders call).get "host").elim (call.req.headers.values "x-forwarded-host")
      fun host => [host] := by
  rw [upstreamHeaders_eq]
  cases (forwardedHeaders call).get "host" with
  | none =>
    rw [Option.elim_none, Option.elim_none, values_forwardedHeaders, values_stripHopByHop]
    rfl
  | some host => rw [Option.elim_some, Option.elim_some, HeaderMap.values_insert, if_pos rfl]

theorem faithful_buildRequest (call : Call) :
    Faithful ⟨call.req, call.clientIp, call.isTls⟩ (buildRequest call) := by
  refine ⟨rfl, rfl, rfl, ?_, ?_, ?_, ?_⟩
  · intro name hhop hset
    simp only [rewritten, List.mem_cons, List.not_mem_nil, or_false, not_or] at hset
    obtain ⟨hhost, hfor, hproto, hforwarded⟩ := hset
    have hv := values_upstreamHeaders call hforwarded
    rwa [values_forwardedHeaders, if_neg hproto, if_neg hfor, if_neg fun h => hhost h.1,
      values_stripHopByHop, if_neg hhop] at hv
  · exact (values_upstreamHeaders call (by decide)).trans (values_forwardedHeaders ..)
  · exact (values_upstreamHeaders call (by decide)).trans (values_forwardedHeaders ..)
  · intro name hhop
    have hne : ∀ other, other ∉ hopByHop → name ≠ other := by
      rintro other ho rfl
      exact ho hhop
    have hv := values_upstreamHeaders call (hne "x-forwarded-host" (by decide))
    rwa [values_forwardedHeaders, if_neg (hne _ (by decide)), if_neg (hne _ (by decide)),
      if_neg fun h => hne "host" (by decide) h.1, values_stripHopByHop, if_pos hhop] at hv

/-- The request a call has built and not yet had answered. -/
def carries : UpstreamForward.Pc → Option Request
  | .acquiring req | .connecting req _ | .handshaking req _ | .sending req _ _
  | .awaiting req _ _ => some req
  | _ => none

structure Upholds (P : ℕ → Request → Prop) (f : UpstreamForward.State) : Prop where
  carried : ∀ i req, carries (f.pc i) = some req → P i req
  exchanged : ∀ x ∈ f.exchanges, P x.call x.req
  delivered : ∀ d ∈ f.delivered, P d.call d.req

theorem carries_afterSendError (req : Request) (retry : Bool) (e : String) {req' : Request}
    (h : carries (UpstreamForward.afterSendError req retry e) = some req') : req' = req := by
  cases retry <;> simp [UpstreamForward.afterSendError, carries] at h
  exact h.symm

theorem moves_carries {call : Call} {f : UpstreamForward.State} {i : ℕ}
    {p q : UpstreamForward.Pc} {act : Act} (h : Moves call f i p act q) {req : Request}
    (hq : carries q = some req) : carries p = some req ∨ req = buildRequest call := by
  cases h with
  | collected => exact Or.inr (Option.some.inj hq).symm
  | refused req' c retry e =>
    obtain rfl := carries_afterSendError req' retry e hq
    exact Or.inl rfl
  | miss | connected => exact Or.inl hq
  | _ => cases hq

theorem Upholds.goto {P : ℕ → Request → Prop} {f g : UpstreamForward.State} {i : ℕ}
    {pc : UpstreamForward.Pc} (h : Upholds P f) (hp : g.pc = (f.goto i pc).pc)
    (hx : ∀ x ∈ g.exchanges, P x.call x.req) (hd : g.delivered = f.delivered)
    (hc : ∀ req, carries pc = some req → P i req) : Upholds P g := by
  refine ⟨?_, hx, ?_⟩
  · intro j req hj
    rw [hp] at hj
    rcases UpstreamForward.goto_cases (P := fun pc => carries pc = some req) hj with
      ⟨rfl, hnew⟩ | ⟨_, hold⟩
    · exact hc req hnew
    · exact h.carried j req hold
  · rw [hd]
    exact h.delivered

theorem upholds_call {P : ℕ → Request → Prop} {call : Call} {f g : UpstreamForward.State} {i : ℕ}
    {act : Act} (h : Upholds P f) (hb : P i (buildRequest call)) (hs : CallStep call f i act g) :
    Upholds P g := by
  have hcarried : ∀ {p req}, f.pc i = p → carries p = some req → P i req := by
    rintro _ req rfl hreq
    exact h.carried i req hreq
  cases hs with
  | move hm =>
    refine h.goto rfl h.exchanged rfl ?_
    intro req hreq
    rcases moves_carries hm hreq with hp | rfl
    · exact h.carried i req hp
    · exact hb
  | reuse req c hp hl => exact h.goto rfl h.exchanged rfl fun _ hreq => hcarried hp hreq
  | opened req retry hp => exact h.goto rfl h.exchanged rfl fun _ hreq => hcarried hp hreq
  | sent req c retry hp ho =>
    refine h.goto rfl ?_ rfl fun _ hreq => hcarried hp hreq
    intro x hx
    rcases List.mem_append.mp hx with hx | hx
    · exact h.exchanged x hx
    · rw [List.mem_singleton.mp hx]
      exact hcarried hp rfl
  | failed req c retry e hp hc =>
    refine h.goto rfl h.exchanged rfl ?_
    intro req' hreq
    obtain rfl := carries_afterSendError req retry e hreq
    exact hcarried hp rfl
  | answered req retry k x resp hp hf hx =>
    refine h.goto rfl ?_ rfl (by simp [carries])
    intro y hy
    rcases List.mem_or_eq_of_mem_set hy with hy | rfl
    · exact h.exchanged y hy
    · exact h.exchanged x (List.mem_of_getElem? (UpstreamForward.first_getElem hf))
  | kept c resp hp hroom => exact h.goto rfl h.exchanged rfl (by simp [carries])

theorem upholds_step {P : ℕ → Request → Prop} {calls : ℕ → Call} {f g : UpstreamForward.State}
    {e : UpstreamForward.Event} (h : Upholds P f) (hb : ∀ i, P i (buildRequest (calls i)))
    (hs : UpstreamForward.Step calls f e g) : Upholds P g := by
  cases hs with
  | call i act _ hs => exact upholds_call h (hb i) hs
  | receive k x hk hr =>
    have hx := h.exchanged x (List.mem_of_getElem? hk)
    refine ⟨h.carried, ?_, ?_⟩
    · intro y hy
      rcases List.mem_or_eq_of_mem_set hy with hy | rfl
      · exact h.exchanged y hy
      · exact hx
    · intro d hd
      rcases List.mem_cons.mp hd with rfl | hd
      · exact hx
      · exact h.delivered d hd
  | drain k x hf hh =>
    exact ⟨h.carried, fun y hy => h.exchanged y ((List.eraseIdx_sublist ..).subset hy),
      h.delivered⟩
  | close c conn hc =>
    exact ⟨h.carried, fun y hy => h.exchanged y (List.mem_of_mem_filter hy), h.delivered⟩

theorem faithful_callOf (s : State) (i : ℕ) :
    Faithful (arrivals i) (buildRequest (callOf arrivals hostParses s i)) :=
  faithful_buildRequest (callOf arrivals hostParses s i)

def actHead : Act → Option Head
  | .respond _ head => some head
  | _ => none

def actBody : Act → Option Bytes
  | .body (.ok bytes) => some bytes
  | _ => none

def actOf (i : ℕ) : Event → Option Act
  | .forward (.call j act) => if j = i then some act else none
  | _ => none

/-- The response heads request `i` has got, and the bodies it has read to their end. -/
def heads (tr : List (State × Event)) (i : ℕ) : List Head :=
  tr.filterMap fun p => (actOf i p.2).bind actHead

def bodies (tr : List (State × Event)) (i : ℕ) : List Bytes :=
  tr.filterMap fun p => (actOf i p.2).bind actBody

theorem heads_snoc (tr : List (State × Event)) (s : State) (e : Event) (i : ℕ) :
    heads (tr ++ [(s, e)]) i = heads tr i ++ ((actOf i e).bind actHead).toList := by
  rw [heads, List.filterMap_append]
  cases h : (actOf i e).bind actHead <;> simp [heads, h]

theorem bodies_snoc (tr : List (State × Event)) (s : State) (e : Event) (i : ℕ) :
    bodies (tr ++ [(s, e)]) i = bodies tr i ++ ((actOf i e).bind actBody).toList := by
  rw [bodies, List.filterMap_append]
  cases h : (actOf i e).bind actBody <;> simp [bodies, h]

def Answers (hs : List Head) (bs : List Bytes) : UpstreamForward.Pc → Prop
  | .releasing _ head | .reading _ head => hs = [head] ∧ bs = []
  | .done (.ok resp) => ∃ head bytes, hs = [head] ∧ bs = [bytes] ∧
      resp = ⟨head.status, stripHopByHop head.headers, bytes⟩
  | .done (.error _) => True
  | _ => hs = [] ∧ bs = []

theorem answers_afterSendError (req : Request) (retry : Bool) (e : String) :
    Answers [] [] (UpstreamForward.afterSendError req retry e) := by
  cases retry <;> simp [UpstreamForward.afterSendError, Answers]

theorem answers_moves {call : Call} {f : UpstreamForward.State} {i : ℕ}
    {p q : UpstreamForward.Pc} {act : Act} {hs : List Head} {bs : List Bytes}
    (hp : Answers hs bs p) (h : Moves call f i p act q) :
    Answers (hs ++ (actHead act).toList) (bs ++ (actBody act).toList) q := by
  cases h with
  | refused req c retry e =>
    obtain ⟨rfl, rfl⟩ := hp
    exact answers_afterSendError req retry e
  | finish c resp bytes hx =>
    obtain ⟨rfl, rfl⟩ := hp
    exact ⟨resp, bytes, rfl, rfl, rfl⟩
  | collectError | connectError | handshakeError | bodyError | timeout => trivial
  | start | collected | miss | connected | full => simpa [Answers, actHead, actBody] using hp

theorem answers_call {call : Call} {f g : UpstreamForward.State} {i : ℕ} {act : Act}
    {hs : List Head} {bs : List Bytes} (h : Answers hs bs (f.pc i))
    (hstep : CallStep call f i act g) :
    Answers (hs ++ (actHead act).toList) (bs ++ (actBody act).toList) (g.pc i) := by
  cases hstep with
  | move hm =>
    rw [UpstreamForward.goto_pc_self]
    exact answers_moves h hm
  | failed req c retry e hp hc =>
    rw [hp] at h
    obtain ⟨rfl, rfl⟩ := h
    rw [UpstreamForward.goto_pc_self]
    exact answers_afterSendError req retry e
  | reuse req c hp | opened req retry hp | sent req c retry hp | answered req retry k x resp hp
  | kept c resp hp =>
    rw [hp] at h
    obtain ⟨rfl, rfl⟩ := h
    rw [UpstreamForward.goto_pc_self]
    exact ⟨rfl, rfl⟩

theorem callStep_other {call : Call} {f g : UpstreamForward.State} {i j : ℕ} {act : Act}
    (h : CallStep call f i act g) (hj : j ≠ i) : g.pc j = f.pc j := by
  cases h <;> exact UpstreamForward.goto_pc_of_ne _ _ hj

theorem forward_cases {calls : ℕ → Call} {f g : UpstreamForward.State} {e : UpstreamForward.Event}
    (h : UpstreamForward.Step calls f e g) (i : ℕ) :
    (∃ act, e = .call i act ∧ CallStep (calls i) f i act g) ∨
      (actOf i (.forward e) = none ∧ g.pc i = f.pc i) := by
  cases h with
  | call j act _ hs =>
    by_cases hj : j = i
    · subst hj
      exact Or.inl ⟨act, rfl, hs⟩
    · exact Or.inr ⟨by simp [actOf, hj], callStep_other hs (Ne.symm hj)⟩
  | receive k x hk hr => exact Or.inr ⟨rfl, rfl⟩
  | drain k x hf hh => exact Or.inr ⟨rfl, rfl⟩
  | close c conn hc => exact Or.inr ⟨rfl, rfl⟩

theorem answers_forward {s : State} {g : UpstreamForward.State} {e : UpstreamForward.Event}
    {tr : List (State × Event)} (h : ∀ i, Answers (heads tr i) (bodies tr i) (s.forward.pc i))
    (hs : UpstreamForward.Step (callOf arrivals hostParses s) s.forward e g) (i : ℕ) :
    Answers (heads (tr ++ [(s, .forward e)]) i) (bodies (tr ++ [(s, .forward e)]) i) (g.pc i) := by
  rw [heads_snoc, bodies_snoc]
  rcases forward_cases hs i with ⟨act, rfl, hcall⟩ | ⟨hact, hpc⟩
  · simpa [actOf] using answers_call (h i) hcall
  · simpa [hact, hpc] using h i

def timed (resp : Response) (ms : ℕ) : Response :=
  { resp with headers := resp.headers.insert "x-response-time" s!"{ms}ms" }

/-- Where a request stands in `handle`, its call of `forward` has not begun, is under way, or
has returned what the request goes on with. -/
def Linked (pc : RequestMediation.Pc) (fpc : UpstreamForward.Pc) : Prop :=
  match pc with
  | .forwarding _ _ => True
  | .routed result => fpc = .absent ∨
      ∃ r, fpc = .done r ∧ result = r.map fun resp => (resp, false)
  | .answered resp => fpc = .absent ∨ (∃ e, fpc = .done (.error e)) ∨
      ∃ r ms, fpc = .done (.ok r) ∧ resp = timed r ms
  | _ => fpc = .absent

theorem linked_absent (pc : RequestMediation.Pc) : Linked pc .absent := by
  cases pc <;> simp [Linked]

/-- Before `forward` is called, and on the pages that never call it. -/
def Unforwarded : RequestMediation.Pc → Prop
  | .forwarding _ _ | .routed _ | .answered _ => False
  | _ => True

theorem Linked.unforwarded {pc : RequestMediation.Pc} {fpc : UpstreamForward.Pc}
    (h : Linked pc fpc) (hpc : Unforwarded pc) (pc' : RequestMediation.Pc) : Linked pc' fpc := by
  have hf : fpc = .absent := by
    cases pc <;> first | exact h | exact absurd hpc id
  rw [hf]
  exact linked_absent pc'

theorem unforwarded_of_step {req : Request} {m m' : RequestMediation.State}
    (h : RequestMediation.next req m .step = some m') : Unforwarded m.pc := by
  cases RequestMediation.next_cases h <;> simp [Unforwarded, *]

theorem linked_forwarded {req : Request} {m m' : RequestMediation.State}
    {result : Except ProxyConfig.ProxyError Response}
    (h : RequestMediation.next req m (.forwarded result) = some m') :
    Linked m'.pc (.done result) := by
  cases RequestMediation.next_cases h
  exact Or.inr ⟨result, rfl, rfl⟩

theorem linked_elapsed {req : Request} {m m' : RequestMediation.State} {ms : ℕ}
    {fpc : UpstreamForward.Pc} (hl : Linked m.pc fpc)
    (h : RequestMediation.next req m (.elapsed ms) = some m') : Linked m'.pc fpc := by
  cases RequestMediation.next_cases h with
  | answer _ resp blocked pc =>
    rw [pc] at hl
    rcases hl with rfl | ⟨r, rfl, hr⟩
    · exact linked_absent _
    · cases r with
      | error e => cases hr
      | ok resp => cases hr; exact Or.inr (Or.inr ⟨resp, ms, rfl, rfl⟩)
  | answerError _ e pc =>
    rw [pc] at hl
    rcases hl with rfl | ⟨r, rfl, hr⟩
    · exact linked_absent _
    · cases r with
      | error e => exact Or.inr (Or.inl ⟨e, rfl⟩)
      | ok resp => cases hr

theorem linked_setMediation {s : State} {j : ℕ} {m : RequestMediation.State}
    (h : ∀ i, Linked (s.pc i) (s.forward.pc i)) (hm : Linked m.pc (s.forward.pc j)) (i : ℕ) :
    Linked ((s.setMediation j m).pc i) (s.forward.pc i) := by
  by_cases hij : i = j
  · subst hij
    simpa [State.pc, State.setMediation] using hm
  · simpa [State.pc, State.setMediation, hij] using h i

theorem forwardable_call {s : State} {i : ℕ} {act : Act}
    (h : forwardable s (.call i act) = true) :
    ∃ upstream timeoutMs, s.pc i = .forwarding upstream timeoutMs := by
  cases hp : s.pc i with
  | forwarding upstream timeoutMs => exact ⟨upstream, timeoutMs, rfl⟩
  | _ => simp [forwardable, target, hp] at h

theorem linked_forward {s : State} {g : UpstreamForward.State} {e : UpstreamForward.Event}
    (h : ∀ i, Linked (s.pc i) (s.forward.pc i)) (he : forwardable s e = true)
    (hs : UpstreamForward.Step (callOf arrivals hostParses s) s.forward e g) (i : ℕ) :
    Linked (s.pc i) (g.pc i) := by
  rcases forward_cases hs i with ⟨act, rfl, _⟩ | ⟨_, hpc⟩
  · obtain ⟨upstream, timeoutMs, hp⟩ := forwardable_call he
    rw [hp]
    trivial
  · rw [hpc]
    exact h i

structure Invariant (arrivals : ℕ → Arrival) (tr : List (State × Event)) (s : State) : Prop where
  upholds : Upholds (fun i req => Faithful (arrivals i) req) s.forward
  linked : ∀ i, Linked (s.pc i) (s.forward.pc i)
  answers : ∀ i, Answers (heads tr i) (bodies tr i) (s.forward.pc i)

theorem invariant_boot (current : ProxyState.AppState) (flags : ℕ → Bool) (maxIdlePerHost : ℕ) :
    Invariant arrivals [] (boot current flags maxIdlePerHost) := by
  refine ⟨⟨?_, ?_, ?_⟩, fun i => rfl, fun i => ⟨rfl, rfl⟩⟩
  · intro i req h
    cases h
  · intro x hx
    cases hx
  · intro d hd
    cases hd

theorem Invariant.beside {tr : List (State × Event)} {s t : State} {e : Event}
    (h : Invariant arrivals tr s) (hf : t.forward = s.forward) (he : ∀ i, actOf i e = none)
    (hl : ∀ i, Linked (t.pc i) (s.forward.pc i)) : Invariant arrivals (tr ++ [(s, e)]) t := by
  refine ⟨?_, ?_, ?_⟩
  · rw [hf]
    exact h.upholds
  · rw [hf]
    exact hl
  · intro i
    rw [hf]
    simpa [heads_snoc, bodies_snoc, he i] using h.answers i

theorem invariant_step {tr : List (State × Event)} {s t : State} {e : Event}
    (h : Invariant arrivals tr s) (hs : Step arrivals hostParses s e t) :
    Invariant arrivals (tr ++ [(s, e)]) t := by
  cases hs with
  | store state => exact h.beside rfl (fun _ => rfl) h.linked
  | setFlag j healthy => exact h.beside rfl (fun _ => rfl) h.linked
  | step j m hm =>
    have hj := (h.linked j).unforwarded (unforwarded_of_step hm) m.pc
    exact h.beside rfl (fun _ => rfl) (linked_setMediation h.linked hj)
  | health j uptime m hp hm =>
    have hj := (h.linked j).unforwarded (by rw [hp]; trivial) m.pc
    exact h.beside rfl (fun _ => rfl) (linked_setMediation h.linked hj)
  | load j c hp => exact h.beside rfl (fun _ => rfl) h.linked
  | page j text m hp hm =>
    have hj := (h.linked j).unforwarded (by rw [hp]; trivial) m.pc
    exact h.beside rfl (fun _ => rfl) (linked_setMediation h.linked hj)
  | forward e f he hf =>
    have hstep := UpstreamForward.step_of_next hf
    have hlinked : ∀ i, Linked (s.pc i) (f.pc i) := linked_forward h.linked he hstep
    exact ⟨upholds_step h.upholds (faithful_callOf s) hstep, hlinked,
      answers_forward h.answers hstep⟩
  | forwarded j result m hp hm =>
    have hj : Linked m.pc (s.forward.pc j) := by
      rw [hp]
      exact linked_forwarded hm
    exact h.beside rfl (fun _ => rfl) (linked_setMediation h.linked hj)
  | elapsed j ms result m hp hm =>
    have hj := linked_elapsed (h.linked j) hm
    exact h.beside rfl (fun _ => rfl) (linked_setMediation h.linked hj)
  | record j u us hr =>
    refine h.beside (write_forward ..) (fun _ => rfl) ?_
    intro i
    simpa [State.pc] using h.linked i

/-- What any upstream was or is being sent, and what a forwarded request was answered with. -/
structure Transparent (arrivals : ℕ → Arrival) (tr : List (State × Event)) (s : State) : Prop where
  sending : ∀ i req sender retry, s.forward.pc i = .sending req sender retry →
    Faithful (arrivals i) req
  sent : ∀ x ∈ s.forward.exchanges, Faithful (arrivals x.call) x.req
  received : ∀ d ∈ s.forward.delivered, Faithful (arrivals d.call) d.req
  answered : ∀ i resp forwarded, s.pc i = .answered resp →
    s.forward.pc i = .done (.ok forwarded) →
    ∃ head bytes, heads tr i = [head] ∧ bodies tr i = [bytes] ∧
      resp.status = head.status ∧ resp.body = bytes ∧
      ∀ name, name ∉ hopByHop → name ≠ "x-response-time" →
        resp.headers.values name = head.headers.values name

theorem Invariant.transparent {tr : List (State × Event)} {s : State}
    (h : Invariant arrivals tr s) : Transparent arrivals tr s := by
  refine ⟨?_, h.upholds.exchanged, h.upholds.delivered, ?_⟩
  · intro i req sender retry hp
    exact h.upholds.carried i req (by rw [hp]; rfl)
  · intro i resp forwarded hp hf
    have hl := h.linked i
    have ha := h.answers i
    rw [hp, hf] at hl
    rw [hf] at ha
    obtain ⟨head, bytes, hheads, hbodies, rfl⟩ := ha
    rcases hl with habs | ⟨e, herr⟩ | ⟨r, ms, hr, rfl⟩
    · cases habs
    · cases herr
    · cases hr
      refine ⟨head, bytes, hheads, hbodies, rfl, rfl, ?_⟩
      intro name hhop htime
      simp only [timed]
      rw [HeaderMap.values_insert, if_neg htime, values_stripHopByHop, if_neg hhop]

theorem forwarding_transparent (arrivals : ℕ → Arrival) (hostParses : String → Bool)
    (current : ProxyState.AppState) (flags : ℕ → Bool) (maxIdlePerHost : ℕ)
    {tr : List (State × Event)} {u : State}
    (h : Run (next arrivals hostParses) (boot current flags maxIdlePerHost) tr u) :
    Transparent arrivals tr u := by
  have hi : Invariant arrivals tr u :=
    h.traced_invariant (invariant_boot current flags maxIdlePerHost)
      fun _ _ _ _ ht hn => invariant_step ht (step_of_next arrivals hostParses hn)
  exact hi.transparent

def sampleArrival : Arrival :=
  ⟨⟨"GET", .origin "/api/users" none,
    [("x-forwarded-for", "1.2.3.4"), ("x-forwarded-for", "5.6.7.8"), ("connection", "close"),
      ("accept", "text/html")], []⟩, "10.0.0.7", true⟩

def sampleHead : Head := ⟨201, [("set-cookie", "a=1"), ("upgrade", "h2c"), ("set-cookie", "b=2")]⟩

def sampleForward : List Event :=
  [.call 0 .start, .call 0 (.collect (.ok ())), .call 0 .acquire, .call 0 (.connect (.ok ())),
    .call 0 (.handshake (.ok ())), .call 0 (.send (.error "canceled")),
    .call 0 (.connect (.ok ())), .call 0 (.handshake (.ok ())), .call 0 (.send (.ok ())),
    .receive 0, .call 0 (.respond 0 sampleHead), .call 0 .release, .drain 0,
    .call 0 (.body (.ok [7]))].map Event.forward

def sampleView (s : State) : List (ℕ × List String) × Option (List String) :=
  (s.forward.delivered.map fun d => (d.call, d.req.headers.values "x-forwarded-for"),
    (s.answer 0).map fun resp => resp.headers.values "set-cookie")

theorem forwarding_transparent_retried : ∃ tr u,
    Run (next (fun _ => sampleArrival) fun _ => true)
      (boot (RequestMediation.sampleState "127.0.0.1:3000") (fun _ => true) 1) tr u ∧
    sampleView u = ([(0, ["10.0.0.7"])], some ["a=1", "b=2"]) ∧
    Transparent (fun _ => sampleArrival) tr u := by
  obtain ⟨u, hr, hv⟩ := run_of_view (next (fun _ => sampleArrival) fun _ => true)
    (boot (RequestMediation.sampleState "127.0.0.1:3000") (fun _ => true) 1)
    (List.replicate 5 (.step 0) ++ sampleForward ++ [.forwarded 0, .elapsed 0 3])
    sampleView ([(0, ["10.0.0.7"])], some ["a=1", "b=2"]) rfl
  exact ⟨_, u, hr, hv, forwarding_transparent _ _ _ _ _ hr⟩

end ForwardTransparency
