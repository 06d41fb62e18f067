import Mathlib.Data.Finset.Insert
import PrismProxy.RequestMediation
import PrismProxy.UpstreamForward
import PrismProxy.ProxyMetrics

/-! # Serving requests

Every request runs `handle`: mediation decides what becomes of it, forwarding shares one pool,
and at its end `record` writes the counters one atomic at a time. A request whose client goes
away is one that takes no further step. -/
namespace RequestServing

open TransitionRuns ProxyConfig HttpMessage ProxyMetrics
open ProxyState (AppState)

/-- A request with what its connection is known by: the text of the peer's address and whether
it was accepted over TLS. -/
structure Arrival where
  req : Request
  clientIp : String
  isTls : Bool

/-- `loads` are the counters a `/metrics` page has loaded so far, `recording` the updates a
`record` still has to write, `completed` the requests whose `handle` has returned. -/
structure State where
  mediation : ℕ → RequestMediation.State
  forward : UpstreamForward.State
  metrics : Metrics
  loads : ℕ → List ℕ
  recording : ℕ → List Update
  completed : Finset ℕ

def boot (current : AppState) (flags : ℕ → Bool) (maxIdlePerHost : ℕ) : State :=
  ⟨fun _ => RequestMediation.start current flags, UpstreamForward.boot maxIdlePerHost,
    Metrics.zero, fun _ => [], fun _ => [], ∅⟩

/-- The steps of the requests, of the tasks that store states and write health flags, and of
`forward` with the connections and upstreams behind it. -/
inductive Event where
  | store (state : AppState)
  | setFlag (j : ℕ) (healthy : Bool)
  | step (i : ℕ)
  | health (i : ℕ) (uptime : String)
  | load (i : ℕ)
  | page (i : ℕ)
  | forward (e : UpstreamForward.Event)
  | forwarded (i : ℕ)
  | elapsed (i ms : ℕ)
  | record (i : ℕ)

section Operations

variable (s : State) (i : ℕ)

def State.setMediation (m : RequestMediation.State) : State :=
  { s with mediation := Function.update s.mediation i m }

def State.setRecording (us : List Update) : State :=
  { s with recording := Function.update s.recording i us }

def State.setMetrics (m : Metrics) : State := { s with metrics := m }

def State.complete : State := { s with completed := insert i s.completed }

/-- One update of a `record`; the last one lets `handle` return. -/
def State.write (u : Update) (us : List Update) : State :=
  let t := (s.setMetrics (fetchAdd s.metrics u)).setRecording i us
  if us = [] then t.complete i else t

def State.pc : RequestMediation.Pc := (s.mediation i).pc

/-- What `handle` answers with, once it has decided. -/
def State.answer : Option Response :=
  match s.pc i with
  | .answered resp => some resp
  | _ => none

def State.publish (write : RequestMediation.State → RequestMediation.State) : State :=
  { s with mediation := fun i => write (s.mediation i) }

@[simp] theorem write_mediation (u : Update) (us : List Update) :
    (s.write i u us).mediation = s.mediation := by
  unfold State.write
  split <;> rfl

@[simp] theorem write_forward (u : Update) (us : List Update) :
    (s.write i u us).forward = s.forward := by
  unfold State.write
  split <;> rfl

@[simp] theorem write_metrics (u : Update) (us : List Update) :
    (s.write i u us).metrics = fetchAdd s.metrics u := by
  unfold State.write
  split <;> rfl

@[simp] theorem write_recording (u : Update) (us : List Update) :
    (s.write i u us).recording = Function.update s.recording i us := by
  unfold State.write
  split <;> rfl

variable {s i}

theorem pc_setMediation (m : RequestMediation.State) : (s.setMediation i m).pc i = m.pc := by
  simp [State.pc, State.setMediation]

theorem mediation_of_ne {j : ℕ} (h : i ≠ j) (m : RequestMediation.State) :
    (s.setMediation j m).mediation i = s.mediation i := Function.update_of_ne h ..

theorem answer_of_ne {j : ℕ} (h : i ≠ j) (m : RequestMediation.State) :
    (s.setMediation j m).answer i = s.answer i := by
  simp only [State.answer, State.pc, mediation_of_ne h]

theorem answer_eq {resp : Response} : s.answer i = some resp ↔ s.pc i = .answered resp := by
  unfold State.answer
  cases s.pc i <;> simp

theorem unanswered {pc : RequestMediation.Pc} (hp : s.pc i = pc)
    (h : ∀ resp, pc ≠ .answered resp) : s.answer i = none := by
  cases ha : s.answer i with
  | none => rfl
  | some resp =>
    rw [answer_eq, hp] at ha
    exact absurd ha (h resp)

end Operations

/-- The upstream and the timeout `route` calls `forward` with. -/
def target : RequestMediation.Pc → Option (String × ℕ)
  | .forwarding upstream timeoutMs => some (upstream, timeoutMs)
  | _ => none

section Steps

variable (arrivals : ℕ → Arrival) (hostParses : String → Bool)

def callOf (s : State) (i : ℕ) : UpstreamForward.Call :=
  let (upstream, timeoutMs) := (target (s.pc i)).getD ("", 0)
  ⟨(arrivals i).req, upstream, hostParses upstream, timeoutMs, (arrivals i).clientIp,
    (arrivals i).isTls⟩

def mediate (s : State) (i : ℕ) (e : RequestMediation.Event) : Option State :=
  (RequestMediation.next (arrivals i).req (s.mediation i) e).map (s.setMediation i)

/-- A call of `forward` steps only while its request is in it. -/
def forwardable (s : State) : UpstreamForward.Event → Bool
  | .call i _ => (target (s.pc i)).isSome
  | .receive _ | .drain _ | .close _ => true

def loaded (loads : List ℕ) (c : Counter) : ℕ := ((renderLoads.zip loads).lookup c).getD 0

/-- What `handle` records once the time is taken: the status it is about to answer with. -/
def recordOf (result : Except ProxyError (Response × Bool)) (ms : ℕ) : List Update :=
  match result with
  | .ok (resp, blocked) => record resp.status ms blocked
  | .error e => record (RequestMediation.errorResponse e).status ms false

def next (s : State) : Event → Option State
  | .store state => some (s.publish fun m => { m with current := state })
  | .setFlag j healthy =>
    some (s.publish fun m => { m with flags := Function.update m.flags j healthy })
  | .step i => mediate arrivals s i .step
  | .health i uptime =>
    match s.pc i with
    | .health => mediate arrivals s i (.text uptime)
    | _ => none
  | .load i =>
    match s.pc i, renderLoads[(s.loads i).length]? with
    | .metrics, some c =>
      some { s with loads := Function.update s.loads i (s.loads i ++ [s.metrics c]) }
    | _, _ => none
  | .page i =>
    match s.pc i, renderLoads[(s.loads i).length]? with
    | .metrics, none =>
      (mediate arrivals s i (.text (render (loaded (s.loads i))))).map fun t => t.complete i
    | _, _ => none
  | .forward e =>
    if forwardable s e then
      (UpstreamForward.next (callOf arrivals hostParses s) s.forward e).map fun f =>
        { s with forward := f }
    else none
  | .forwarded i =>
    match s.forward.pc i with
    | .done result => mediate arrivals s i (.forwarded result)
    | _ => none
  | .elapsed i ms =>
    match s.pc i with
    | .routed result =>
      (mediate arrivals s i (.elapsed ms)).map fun t => t.setRecording i (recordOf result ms)
    | _ => none
  | .record i =>
    match s.recording i with
    | [] => none
    | u :: us => some (s.write i u us)

inductive Step (s : State) : Event → State → Prop where
  | store (state) : Step s (.store state) (s.publish fun m => { m with current := state })
  | setFlag (j healthy) :
    Step s (.setFlag j healthy)
      (s.publish fun m => { m with flags := Function.update m.flags j healthy })
  | step (i m) (h : RequestMediation.next (arrivals i).req (s.mediation i) .step = some m) :
    Step s (.step i) (s.setMediation i m)
  | health (i uptime m) (hp : s.pc i = .health)
    (h : RequestMediation.next (arrivals i).req (s.mediation i) (.text uptime) = some m) :
    Step s (.health i uptime) (s.setMediation i m)
  | load (i c) (hp : s.pc i = .metrics) :
    Step s (.load i) { s with loads := Function.update s.loads i (s.loads i ++ [s.metrics c]) }
  | page (i text m) (hp : s.pc i = .metrics)
    (h : RequestMediation.next (arrivals i).req (s.mediation i) (.text text) = some m) :
    Step s (.page i) ((s.setMediation i m).complete i)
  | forward (e f) (he : forwardable s e = true)
    (h : UpstreamForward.next (callOf arrivals hostParses s) s.forward e = some f) :
    Step s (.forward e) { s with forward := f }
  | forwarded (i result m) (hp : s.forward.pc i = .done result)
    (h : RequestMediation.next (arrivals i).req (s.mediation i) (.forwarded result) = some m) :
    Step s (.forwarded i) (s.setMediation i m)
  | elapsed (i ms result m) (hp : s.pc i = .routed result)
    (h : RequestMediation.next (arrivals i).req (s.mediation i) (.elapsed ms) = some m) :
    Step s (.elapsed i ms) ((s.setMediation i m).setRecording i (recordOf result ms))
  | record (i u us) (hr : s.recording i = u :: us) : Step s (.record i) (s.write i u us)

theorem step_of_next {s t : State} {e : Event} (h : next arrivals hostParses s e = some t) :
    Step arrivals hostParses s e t := by
  cases e with
  | store state => cases h; exact .store state
  | setFlag j healthy => cases h; exact .setFlag j healthy
  | step i =>
    obtain ⟨m, hm, rfl⟩ := Option.map_eq_some_iff.mp h
    exact .step i m hm
  | health i uptime =>
    cases hp : s.pc i <;> simp only [next, hp, reduceCtorEq] at h
    obtain ⟨m, hm, rfl⟩ := Option.map_eq_some_iff.mp h
    exact .health i uptime m hp hm
  | load i =>
    cases hp : s.pc i <;> cases hc : renderLoads[(s.loads i).length]? <;>
      simp only [next, hp, hc, reduceCtorEq] at h
    cases h
    exact .load i _ hp
  | page i =>
    cases hp : s.pc i <;> cases hc : renderLoads[(s.loads i).length]? <;>
      simp only [next, hp, hc, reduceCtorEq] at h
    obtain ⟨_, hj, rfl⟩ := Option.map_eq_some_iff.mp h
    obtain ⟨m, hm, rfl⟩ := Option.map_eq_some_iff.mp hj
    exact .page i _ m hp hm
  | forward e =>
    obtain ⟨he, h⟩ := Option.ite_none_right_eq_some.mp h
    obtain ⟨f, hf, rfl⟩ := Option.map_eq_some_iff.mp h
    exact .forward e f he hf
  | forwarded i =>
    cases hp : s.forward.pc i <;> simp only [next, hp, reduceCtorEq] at h
    obtain ⟨m, hm, rfl⟩ := Option.map_eq_some_iff.mp h
    exact .forwarded i _ m hp hm
  | elapsed i ms =>
    cases hp : s.pc i <;> simp only [next, hp, reduceCtorEq] at h
    obtain ⟨_, hj, rfl⟩ := Option.map_eq_some_iff.mp h
    obtain ⟨m, hm, rfl⟩ := Option.map_eq_some_iff.mp hj
    exact .elapsed i ms _ m hp hm
  | record i =>
    cases hr : s.recording i with
    | nil => simp only [next, hr, reduceCtorEq] at h
    | cons u us =>
      simp only [next, hr] at h
      cases h
      exact .record i u us hr

end Steps

variable {arrivals : ℕ → Arrival} {hostParses : String → Bool}

theorem mediation_invariant {I : ℕ → RequestMediation.State → Prop}
    (step : ∀ i m e m', I i m → RequestMediation.next (arrivals i).req m e = some m' → I i m')
    {s t : State} {e : Event} (hs : ∀ i, I i (s.mediation i)) (h : Step arrivals hostParses s e t) :
    ∀ i, I i (t.mediation i) := by
  have one : ∀ {j : ℕ} {m : RequestMediation.State} {e},
      RequestMediation.next (arrivals j).req (s.mediation j) e = some m →
        ∀ i, I i ((s.setMediation j m).mediation i) := by
    intro j m e hm i
    by_cases hij : i = j
    · subst hij
      simpa [State.setMediation] using step i _ _ _ (hs i) hm
    · simpa [State.setMediation, hij] using hs i
  cases h with
  | store state => exact fun i => step i _ (.store state) _ (hs i) rfl
  | setFlag j healthy => exact fun i => step i _ (.setFlag j healthy) _ (hs i) rfl
  | step j m hm => exact one hm
  | health j uptime m hp hm => exact one hm
  | load j c hp => exact hs
  | page j text m hp hm => exact one hm
  | forward e f he hf => exact hs
  | forwarded j result m hp hm => exact one hm
  | elapsed j ms result m hp hm => exact one hm
  | record j u us hr =>
    simp only [write_mediation]
    exact hs

end RequestServing
