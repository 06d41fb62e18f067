import PrismProxy.ForwardTransparency

/-! # What a failed upstream is answered with

An error of `forward` keeps no more of its cause than the variant of `ProxyError`, and that
picks the status in `error_response`, two modules away. -/
namespace GatewayErrors

open TransitionRuns RequestServing ForwardTransparency
open UpstreamForward (Call Act Moves CallStep)
open RequestMediation (errorResponse)

variable {arrivals : ℕ → Arrival} {hostParses : String → Bool}

/-- `client` is the body of the request, `refused` the connect, `exchange` whatever goes wrong
with HTTP on a connection to the upstream. -/
inductive Cause where
  | client
  | refused
  | exchange
  | timeout
  deriving DecidableEq

def Cause.upstream : Cause → Bool
  | .refused | .exchange => true
  | .client | .timeout => false

def cause : UpstreamForward.Pc → Act → Option Cause
  | _, .cancel => some .timeout
  | .collecting, .collect (.error _) => some .client
  | .connecting _ _, .connect (.error _) => some .refused
  | .handshaking _ _, .handshake (.error _) => some .exchange
  | .sending _ _ true, .send (.error _) => some .exchange
  | .awaiting _ _ true, .fail _ => some .exchange
  | .reading _ _, .body (.error _) => some .exchange
  | _, _ => none

def causes (tr : List (State × Event)) (i : ℕ) : List Cause :=
  tr.filterMap fun p => (actOf i p.2).bind (cause (p.1.forward.pc i))

/-- The status of the error a call ends in. -/
def Cause.status : Cause → ℕ
  | .refused => 502
  | .timeout => 504
  | .client | .exchange => 500

def Own (i : ℕ) (_ : State) : Event → Prop
  | .forwarded j | .elapsed j _ => j = i
  | _ => False

/-- Whatever else runs, request `i` is answered with `code`, and it takes no step of anything
else to be answered. -/
structure AnsweredWith (arrivals : ℕ → Arrival) (hostParses : String → Bool) (u : State)
    (i code : ℕ) : Prop where
  only : ∀ tr v resp, Run (next arrivals hostParses) u tr v → v.answer i = some resp →
    resp.status = code
  reached : ∃ tr v resp, Run (next arrivals hostParses) u tr v ∧ Obeys (Own i) tr ∧
    v.answer i = some resp

/-- A call of `forward` is made for routed and unblocked requests only. -/
structure GatewayStatuses (arrivals : ℕ → Arrival) (hostParses : String → Bool)
    (tr : List (State × Event)) (u : State) : Prop where
  upstream : ∀ i, ∀ c ∈ causes tr i, c.upstream = true → AnsweredWith arrivals hostParses u i 502
  timeout : ∀ i, .timeout ∈ causes tr i → AnsweredWith arrivals hostParses u i 504
  internal : ∀ i resp, u.answer i = some resp → resp.status = 500 →
    ∀ c ∈ causes tr i, c.upstream = false

/-- No handshake fails, no retried send does, and no response body is cut short. -/
def ExchangesComplete (s : State) : Event → Prop
  | .forward (.call i act) => cause (s.forward.pc i) act ≠ some .exchange
  | _ => True

theorem causes_snoc (tr : List (State × Event)) (s : State) (e : Event) (i : ℕ) :
    causes (tr ++ [(s, e)]) i =
      causes tr i ++ ((actOf i e).bind (cause (s.forward.pc i))).toList := by
  rw [causes, List.filterMap_append]
  cases h : (actOf i e).bind (cause (s.forward.pc i)) <;> simp [causes, h]

def Ended (cs : List Cause) : UpstreamForward.Pc → Prop
  | .done (.error e) => ∃ c, cs = [c] ∧ (errorResponse e).status = c.status
  | _ => cs = []

theorem Ended.of_cause {cs : List Cause} {c : Cause} {pc : UpstreamForward.Pc}
    (h : Ended cs pc) (hc : c ∈ cs) :
    ∃ e, pc = .done (.error e) ∧ (errorResponse e).status = c.status := by
  unfold Ended at h
  split at h
  · rename_i e
    obtain ⟨d, rfl, hd⟩ := h
    rw [List.mem_singleton.mp hc]
    exact ⟨e, rfl, hd⟩
  · rw [h] at hc
    cases hc

theorem ended_afterSendError {req : HttpMessage.Request} {retry : Bool} {o : Option Cause}
    (e : String) (ho : o = if retry then some .exchange else none) :
    Ended o.toList (UpstreamForward.afterSendError req retry e) := by
  subst ho
  cases retry with
  | false => rfl
  | true => exact ⟨.exchange, rfl, rfl⟩

theorem ended_moves {call : Call} {f : UpstreamForward.State} {i : ℕ}
    {p q : UpstreamForward.Pc} {act : Act} (h : Moves call f i p act q) :
    Ended (cause p act).toList q := by
  cases h with
  | collectError e => exact ⟨.client, rfl, rfl⟩
  | connectError req retry e => exact ⟨.refused, rfl, rfl⟩
  | handshakeError req retry e => exact ⟨.exchange, rfl, rfl⟩
  | refused req c retry e => exact ended_afterSendError e (by cases retry <;> rfl)
  | bodyError c resp e h => exact ⟨.exchange, rfl, rfl⟩
  | timeout p h hd => exact ⟨.timeout, rfl, rfl⟩
  | start | collected | miss | connected | full | finish => rfl

theorem callStep_done {call : Call} {f g : UpstreamForward.State} {i : ℕ} {act : Act}
    (h : CallStep call f i act g) (r : Except ProxyConfig.ProxyError HttpMessage.Response) :
    f.pc i ≠ .done r := by
  intro hd
  cases h with
  | move hm =>
    rw [hd] at hm
    cases hm with
    | timeout p h hr => exact hr r rfl
  | reuse _ _ hp | opened _ _ hp | sent _ _ _ hp | failed _ _ _ _ hp | answered _ _ _ _ _ hp
  | kept _ _ hp =>
    rw [hp] at hd
    cases hd

theorem ended_call {call : Call} {f g : UpstreamForward.State} {i : ℕ} {act : Act}
    {cs : List Cause} (h : Ended cs (f.pc i)) (hs : CallStep call f i act g) :
    Ended (cs ++ (cause (f.pc i) act).toList) (g.pc i) := by
  have hnil : cs = [] := by
    unfold Ended at h
    split at h
    · rename_i hp
      exact absurd hp (callStep_done hs _)
    · exact h
  subst hnil
  cases hs with
  | move hm =>
    rw [UpstreamForward.goto_pc_self]
    exact ended_moves hm
  | failed req c retry e hp hc =>
    rw [UpstreamForward.goto_pc_self, hp]
    exact ended_afterSendError e (by cases retry <;> rfl)
  | reuse _ _ hp | opened _ _ hp | sent _ _ _ hp | answered _ _ _ _ _ hp | kept _ _ hp =>
    rw [UpstreamForward.goto_pc_self, hp]
    rfl

theorem ended_forward {s : State} {g : UpstreamForward.State} {e : UpstreamForward.Event}
    {tr : List (State × Event)} (h : ∀ i, Ended (causes tr i) (s.forward.pc i))
    (hs : UpstreamForward.Step (callOf arrivals hostParses s) s.forward e g) (i : ℕ) :
    Ended (causes (tr ++ [(s, .forward e)]) i) (g.pc i) := by
  rw [causes_snoc]
  rcases forward_cases hs i with ⟨act, rfl, hcall⟩ | ⟨hact, hpc⟩
  · simpa [actOf] using ended_call (h i) hcall
  · simpa [hact, hpc] using h i

def Reported (pc : RequestMediation.Pc) (fpc : UpstreamForward.Pc) : Prop :=
  ∀ resp e, pc = .answered resp → fpc = .done (.error e) → resp = errorResponse e

theorem reported_setMediation {s : State} {j : ℕ} {m : RequestMediation.State}
    (h : ∀ i, Reported (s.pc i) (s.forward.pc i)) (hm : Reported m.pc (s.forward.pc j)) (i : ℕ) :
    Reported ((s.setMediation j m).pc i) (s.forward.pc i) := by
  by_cases hij : i = j
  · subst hij
    rw [pc_setMediation]
    exact hm
  · simpa [State.pc, State.setMediation, hij] using h i

theorem reported_unforwarded {pc pc' : RequestMediation.Pc} {fpc : UpstreamForward.Pc}
    (hl : Linked pc fpc) (hpc : Unforwarded pc) : Reported pc' fpc := by
  intro resp e _ hf
  have hlink := hl.unforwarded hpc .load
  rw [hf] at hlink
  cases hlink

theorem reported_elapsed {req : HttpMessage.Request} {m m' : RequestMediation.State} {ms : ℕ}
    {fpc : UpstreamForward.Pc} (hl : Linked m.pc fpc)
    (h : RequestMediation.next req m (.elapsed ms) = some m') : Reported m'.pc fpc := by
  rintro resp e hp rfl
  cases RequestMediation.next_cases h with
  | answer _ resp' blocked pc =>
    rw [pc] at hl
    rcases hl with habs | ⟨r, hr, hresult⟩
    · cases habs
    · cases hr
      cases hresult
  | answerError _ e' pc =>
    rw [pc] at hl
    rcases hl with habs | ⟨r, hr, hresult⟩
    · cases habs
    · cases hr
      cases hresult
      cases hp
      rfl

theorem reported_forward {s : State} {g : UpstreamForward.State} {e : UpstreamForward.Event}
    (h : ∀ i, Reported (s.pc i) (s.forward.pc i)) (he : forwardable s e = true)
    (hs : UpstreamForward.Step (callOf arrivals hostParses s) s.forward e g) (i : ℕ) :
    Reported (s.pc i) (g.pc i) := by
  rcases forward_cases hs i with ⟨act, rfl, _⟩ | ⟨_, hpc⟩
  · obtain ⟨upstream, timeoutMs, hp⟩ := forwardable_call he
    intro resp e hanswered
    rw [hp] at hanswered
    cases hanswered
  · rw [hpc]
    exact h i

structure Relayed (s : State) : Prop where
  linked : ∀ i, Linked (s.pc i) (s.forward.pc i)
  reported : ∀ i, Reported (s.pc i) (s.forward.pc i)

theorem Relayed.setMediation {s : State} {j : ℕ} {m : RequestMediation.State} (h : Relayed s)
    (hl : Linked m.pc (s.forward.pc j)) (hr : Reported m.pc (s.forward.pc j)) :
    Relayed (s.setMediation j m) :=
  ⟨linked_setMediation h.linked hl, reported_setMediation h.reported hr⟩

theorem Relayed.unforwarded {s : State} {j : ℕ} {m : RequestMediation.State} (h : Relayed s)
    (hj : Unforwarded (s.pc j)) : Relayed (s.setMediation j m) :=
  h.setMediation ((h.linked j).unforwarded hj m.pc) (reported_unforwarded (h.linked j) hj)

theorem relayed_step {s t : State} {e : Event} (h : Relayed s)
    (hs : Step arrivals hostParses s e t) : Relayed t := by
  cases hs with
  | store state => exact ⟨h.linked, h.reported⟩
  | setFlag j healthy => exact ⟨h.linked, h.reported⟩
  | step j m hm => exact h.unforwarded (unforwarded_of_step hm)
  | health j uptime m hp hm => exact h.unforwarded (by rw [hp]; trivial)
  | load j c hp => exact ⟨h.linked, h.reported⟩
  | page j text m hp hm =>
    have hpage := h.unforwarded (m := m) (by rw [hp]; trivial : Unforwarded (s.pc j))
    exact ⟨hpage.linked, hpage.reported⟩
  | forward e f he hf =>
    have hstep := UpstreamForward.step_of_next hf
    have hlinked : ∀ i, Linked (s.pc i) (f.pc i) := linked_forward h.linked he hstep
    have hreported : ∀ i, Reported (s.pc i) (f.pc i) := reported_forward h.reported he hstep
    exact ⟨hlinked, hreported⟩
  | forwarded j result m hp hm =>
    refine h.setMediation ?_ ?_
    · rw [hp]
      exact linked_forwarded hm
    · intro resp e hanswered
      cases RequestMediation.next_cases hm
      cases hanswered
  | elapsed j ms result m hp hm =>
    have hj := h.setMediation (linked_elapsed (h.linked j) hm) (reported_elapsed (h.linked j) hm)
    exact ⟨hj.linked, hj.reported⟩
  | record j u us hr =>
    refine ⟨?_, ?_⟩
    · intro i
      simpa [State.pc] using h.linked i
    · intro i
      simpa [State.pc] using h.reported i

theorem done_step {s t : State} {e : Event} {i : ℕ}
    {r : Except ProxyConfig.ProxyError HttpMessage.Response} (h : s.forward.pc i = .done r)
    (hs : Step arrivals hostParses s e t) : t.forward.pc i = .done r := by
  cases hs with
  | forward e f he hf =>
    rcases forward_cases (UpstreamForward.step_of_next hf) i with ⟨act, rfl, hcall⟩ | ⟨_, hpc⟩
    · exact absurd h (callStep_done hcall r)
    · exact hpc.trans h
  | record j u us hr =>
    rw [write_forward]
    exact h
  | _ => exact h

theorem next_forwarded {s : State} {i : ℕ} {upstream : String} {timeoutMs : ℕ}
    {r : Except ProxyConfig.ProxyError HttpMessage.Response}
    (hp : s.pc i = .forwarding upstream timeoutMs) (hf : s.forward.pc i = .done r) :
    ∃ t result, next arrivals hostParses s (.forwarded i) = some t ∧ t.pc i = .routed result := by
  have hm : (s.mediation i).pc = .forwarding upstream timeoutMs := hp
  let m := { s.mediation i with pc := .routed (r.map fun resp => (resp, false)) }
  have hn : RequestMediation.next (arrivals i).req (s.mediation i) (.forwarded r) = some m := by
    simp only [RequestMediation.next, hm, m]
  refine ⟨s.setMediation i m, _, ?_, pc_setMediation m⟩
  simp only [next, hf, mediate, hn, Option.map_some]

theorem next_elapsed {s : State} {i : ℕ}
    {result : Except ProxyConfig.ProxyError (HttpMessage.Response × Bool)}
    (hp : s.pc i = .routed result) :
    ∃ t resp, next arrivals hostParses s (.elapsed i 0) = some t ∧ t.answer i = some resp := by
  have hm : (s.mediation i).pc = .routed result := hp
  obtain ⟨m, resp, hn, hanswer⟩ : ∃ m resp,
      RequestMediation.next (arrivals i).req (s.mediation i) (.elapsed 0) = some m ∧
        m.pc = .answered resp := by
    cases result with
    | error e =>
      refine ⟨{ s.mediation i with pc := .answered (errorResponse e) }, _, ?_, rfl⟩
      simp only [RequestMediation.next, hm]
    | ok answer =>
      refine ⟨{ s.mediation i with pc := .answered (timed answer.1 0) }, _, ?_, rfl⟩
      simp only [RequestMediation.next, hm, timed]
  refine ⟨(s.setMediation i m).setRecording i (recordOf result 0), resp, ?_, ?_⟩
  · simp only [next, hp, mediate, hn, Option.map_some]
  · exact answer_eq.mpr ((pc_setMediation m).trans hanswer)

theorem Relayed.reached {s : State} (h : Relayed s) {i : ℕ} {e : ProxyConfig.ProxyError}
    (hf : s.forward.pc i = .done (.error e)) : ∃ tr v resp,
      Run (next arrivals hostParses) s tr v ∧ Obeys (Own i) tr ∧ v.answer i = some resp := by
  cases hp : s.pc i with
  | answered resp => exact ⟨[], s, resp, .nil, obeys_nil _, answer_eq.mpr hp⟩
  | routed result =>
    obtain ⟨v, resp, hn, ha⟩ := next_elapsed hp
    exact ⟨_, v, resp, .single hn, by simp [Own], ha⟩
  | forwarding upstream timeoutMs =>
    obtain ⟨t, result, hn, ht⟩ := next_forwarded hp hf
    obtain ⟨v, resp, hn', ha⟩ := next_elapsed ht
    exact ⟨_, v, resp, .cons hn (.single hn'), by simp [Own], ha⟩
  | start | metrics | health | load | find | gate | plugins =>
    have hl := (h.linked i).unforwarded (by rw [hp]; trivial) .load
    rw [hf] at hl
    cases hl

theorem Relayed.answeredWith {s : State} (h : Relayed s) {i : ℕ} {e : ProxyConfig.ProxyError}
    (hf : s.forward.pc i = .done (.error e)) :
    AnsweredWith arrivals hostParses s i (errorResponse e).status := by
  refine ⟨?_, h.reached hf⟩
  intro tr v resp hr ha
  have hv : Relayed v ∧ v.forward.pc i = .done (.error e) := by
    refine hr.invariant (I := fun s => Relayed s ∧ s.forward.pc i = .done (.error e)) ?_ ⟨h, hf⟩
    rintro t e' w ⟨ht, hd⟩ hn
    have hstep := step_of_next arrivals hostParses hn
    exact ⟨relayed_step ht hstep, done_step hd hstep⟩
  rw [hv.1.reported i resp e (answer_eq.mp ha) hv.2]

theorem AnsweredWith.unique {u : State} {i code code' : ℕ}
    (h : AnsweredWith arrivals hostParses u i code)
    (h' : AnsweredWith arrivals hostParses u i code') : code = code' := by
  obtain ⟨tr, v, resp, hr, _, ha⟩ := h.reached
  exact (h.only tr v resp hr ha).symm.trans (h'.only tr v resp hr ha)

structure Invariant (tr : List (State × Event)) (s : State) : Prop where
  relayed : Relayed s
  ended : ∀ i, Ended (causes tr i) (s.forward.pc i)

theorem invariant_boot (current : ProxyState.AppState) (flags : ℕ → Bool) (maxIdlePerHost : ℕ) :
    Invariant [] (boot current flags maxIdlePerHost) := by
  refine ⟨⟨fun i => rfl, ?_⟩, fun i => rfl⟩
  intro i resp e hp
  cases hp

theorem invariant_step {tr : List (State × Event)} {s t : State} {e : Event}
    (h : Invariant tr s) (hs : Step arrivals hostParses s e t) : Invariant (tr ++ [(s, e)]) t := by
  have beside : t.forward = s.forward → (∀ i, actOf i e = none) →
      ∀ i, Ended (causes (tr ++ [(s, e)]) i) (t.forward.pc i) := by
    intro hf he i
    rw [hf]
    simpa [causes_snoc, he i] using h.ended i
  refine ⟨relayed_step h.relayed hs, ?_⟩
  cases hs with
  | forward e f he hf =>
    have hended : ∀ i, Ended (causes (tr ++ [(s, .forward e)]) i) (f.pc i) :=
      ended_forward h.ended (UpstreamForward.step_of_next hf)
    exact hended
  | record j u us hr => exact beside (write_forward ..) fun _ => rfl
  | _ => exact beside rfl fun _ => rfl

theorem Invariant.answeredWith {tr : List (State × Event)} {s : State} (h : Invariant tr s)
    {i : ℕ} {c : Cause} (hc : c ∈ causes tr i) : AnsweredWith arrivals hostParses s i c.status := by
  obtain ⟨e, hf, he⟩ := (h.ended i).of_cause hc
  rw [← he]
  exact h.relayed.answeredWith hf

theorem actOf_eq_some {i : ℕ} {e : Event} {act : Act} :
    actOf i e = some act ↔ e = .forward (.call i act) := by
  unfold actOf
  split
  · rename_i j act'
    by_cases hj : j = i
    · simp [hj]
    · simp [hj]
  · rename_i hno
    simp only [reduceCtorEq, false_iff]
    exact hno i act

theorem mem_causes {tr : List (State × Event)} {i : ℕ} {c : Cause} :
    c ∈ causes tr i ↔
      ∃ s act, (s, .forward (.call i act)) ∈ tr ∧ cause (s.forward.pc i) act = some c := by
  simp only [causes, List.mem_filterMap, Option.bind_eq_some_iff, actOf_eq_some]
  constructor
  · rintro ⟨⟨s, e⟩, hp, act, rfl, hc⟩
    exact ⟨s, act, hp, hc⟩
  · rintro ⟨s, act, hp, hc⟩
    exact ⟨_, hp, act, rfl, hc⟩

theorem exchangesComplete_iff {tr : List (State × Event)} :
    Obeys ExchangesComplete tr ↔ ∀ i, .exchange ∉ causes tr i := by
  constructor
  · intro h i hc
    obtain ⟨s, act, hp, hcause⟩ := mem_causes.mp hc
    exact h _ hp hcause
  · rintro h ⟨s, e⟩ hp
    cases e with
    | forward e =>
      cases e with
      | call i act => exact fun hcause => h i (mem_causes.mpr ⟨s, act, hp, hcause⟩)
      | _ => trivial
    | _ => trivial

/-- An upstream that fails is reported as a gateway error exactly if it fails to be connected
to, or not in time. -/
theorem gatewayStatuses_iff (arrivals : ℕ → Arrival) (hostParses : String → Bool)
    (current : ProxyState.AppState) (flags : ℕ → Bool) (maxIdlePerHost : ℕ)
    {tr : List (State × Event)} {u : State}
    (h : Run (next arrivals hostParses) (boot current flags maxIdlePerHost) tr u) :
    GatewayStatuses arrivals hostParses tr u ↔ Obeys ExchangesComplete tr := by
  have hi : Invariant tr u :=
    h.traced_invariant (invariant_boot current flags maxIdlePerHost)
      fun _ _ _ _ ht hn => invariant_step ht (step_of_next arrivals hostParses hn)
  rw [exchangesComplete_iff]
  constructor
  · intro hstatus i hc
    have h500 : AnsweredWith arrivals hostParses u i 500 := hi.answeredWith hc
    exact absurd ((hstatus.upstream i _ hc rfl).unique h500) (by decide)
  · intro hno
    refine ⟨?_, ?_, ?_⟩
    · intro i c hc hup
      cases c with
      | refused => exact hi.answeredWith hc
      | exchange => exact absurd hc (hno i)
      | client | timeout => cases hup
    · intro i hc
      exact hi.answeredWith hc
    · intro i resp ha hresp c hc
      have hwith : AnsweredWith arrivals hostParses u i c.status := hi.answeredWith hc
      have hcode := hwith.only [] u resp .nil ha
      cases c with
      | refused =>
        rw [hresp] at hcode
        cases hcode
      | exchange => exact absurd hc (hno i)
      | client | timeout => rfl

instance (s : State) : (e : Event) → Decidable (ExchangesComplete s e)
  | .forward (.call i act) => inferInstanceAs (Decidable (cause (s.forward.pc i) act ≠ _))
  | .forward (.receive _) | .forward (.drain _) | .forward (.close _) | .store _ | .setFlag _ _
  | .step _ | .health _ _ | .load _ | .page _ | .forwarded _ | .elapsed _ _ | .record _ =>
    isTrue trivial

def sampleBoot : State :=
  boot (RequestMediation.sampleState UpstreamForward.sampleAddr) (fun _ => true) 1

def sampleStart : List Event := List.replicate 5 (.step 0) ++
  [.call 0 .start, .call 0 (.collect (.ok ())), .call 0 .acquire].map Event.forward

theorem gatewayStatuses_iff_refused : ∃ tr u,
    Run (next (fun _ => sampleArrival) fun _ => true) sampleBoot tr u ∧
    (u.answer 0).map HttpMessage.Response.status = some 502 ∧
    GatewayStatuses (fun _ => sampleArrival) (fun _ => true) tr u := by
  let es : List Event := sampleStart ++
    ([.call 0 (.connect (.ok ())), .call 0 (.handshake (.ok ())),
      .call 0 (.send (.error "canceled")), .call 0 (.connect (.error "refused"))].map
        Event.forward) ++ [.forwarded 0, .elapsed 0 3]
  obtain ⟨u, hr, hv⟩ := run_of_view (next (fun _ => sampleArrival) fun _ => true) sampleBoot es
    (fun s => (s.answer 0).map HttpMessage.Response.status) (some 502) rfl
  have hc : Obeys ExchangesComplete
      (traceOf (next (fun _ => sampleArrival) fun _ => true) sampleBoot es) := obeys_of_all rfl
  exact ⟨_, u, hr, hv, (gatewayStatuses_iff _ _ _ _ _ hr).mpr hc⟩

/-- The upstream goes away after the head of its response. -/
theorem cutBody_answered_500 : ¬ ∀ (arrivals : ℕ → Arrival) (hostParses : String → Bool)
    (current : ProxyState.AppState) (flags : ℕ → Bool) (maxIdlePerHost : ℕ)
    (tr : List (State × Event)) (u : State),
    Run (next arrivals hostParses) (boot current flags maxIdlePerHost) tr u →
      GatewayStatuses arrivals hostParses tr u := by
  intro hall
  let es : List Event := sampleStart ++
    ([.call 0 (.connect (.ok ())), .call 0 (.handshake (.ok ())), .call 0 (.send (.ok ())),
      .receive 0, .call 0 (.respond 0 sampleHead), .call 0 .release, .close 0,
      .call 0 (.body (.error "end of file"))].map Event.forward) ++ [.forwarded 0, .elapsed 0 3]
  obtain ⟨u, hr, hv⟩ := run_of_view (next (fun _ => sampleArrival) fun _ => true) sampleBoot es
    (fun s => (s.answer 0).map HttpMessage.Response.status) (some 500) rfl
  have hc : .exchange ∈ causes
      (traceOf (next (fun _ => sampleArrival) fun _ => true) sampleBoot es) 0 := by
    have heq : causes (traceOf (next (fun _ => sampleArrival) fun _ => true) sampleBoot es) 0 =
      [.exchange] := rfl
    rw [heq]
    exact List.mem_cons_self
  obtain ⟨resp, ha, hresp⟩ := Option.map_eq_some_iff.mp hv
  have h502 := (hall _ _ _ _ _ _ u hr).upstream 0 _ hc rfl
  have hcode := h502.only [] u resp .nil ha
  rw [hresp] at hcode
  cases hcode

end GatewayErrors
