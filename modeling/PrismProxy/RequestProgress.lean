import PrismProxy.ForwardTransparency
import PrismProxy.MetricsAccounting
import PrismProxy.RequestProvenance

/-! # How much a request does, and that nothing keeps it from it

A request never waits for another one: whatever the others, the loops and the upstreams do, it
can take a step of its own until `handle` has returned, and it takes a bounded number of them.
The timeout of `forward` is one of these steps. Only a guest that never returns keeps its request:
`forward`, with its timeout, comes after the plugins. -/
namespace RequestProgress

open TransitionRuns HttpMessage RequestServing ProxyMetrics
open ProxyPlugin (Plugin runPlugin runPlugins)
open RequestMediation (Mediated findRoute)
open ServedCalls (AllMediated)
open UpstreamForward (Act Moves CallStep)
open WholeProxy (subject)

def callLeft : UpstreamForward.Pc → ℕ
  | .absent => 13
  | .collecting => 12
  | .acquiring _ => 11
  | .connecting _ retry => if retry then 6 else 10
  | .handshaking _ retry => if retry then 5 else 9
  | .sending _ _ retry => if retry then 4 else 8
  | .awaiting _ _ retry => if retry then 3 else 7
  | .releasing _ _ => 2
  | .reading _ _ => 1
  | .done _ => 0

def isConnect : Act → Bool
  | .connect _ => true
  | _ => false

def isSend : Act → Bool
  | .send (.ok ()) => true
  | _ => false

/-- The state a request decides on: the one it has loaded, or would load now. -/
def snapshot (m : RequestMediation.State) : ProxyState.AppState := m.loaded.head?.getD m.current

def chainOf (state : ProxyState.AppState) (path : String) : List Plugin :=
  (findRoute state.routes path).elim [] fun rs => rs.runtime.plugins

def chain (req : Request) (m : RequestMediation.State) : List Plugin :=
  chainOf (snapshot m) req.uri.path

/-- What a request is granted once it has loaded a state: a step for each plugin. -/
def granted (req : Request) (m : RequestMediation.State) : ℕ :=
  if m.loaded = [] then 0 else (chain req m).length

/-- The steps of a request from where it stands, with `loads` counters loaded for a page and its
call of `forward` at `call`. -/
def leftAt (path : String) (pc : RequestMediation.Pc) (loads : ℕ) (call : UpstreamForward.Pc) : ℕ :=
  match pc with
  | .start => 23
  | .metrics => renderLoads.length - loads + 1
  | .health => 5
  | .load => 22
  | .find state => (chainOf state path).length + 21
  | .gate _ rs => rs.runtime.plugins.length + 20
  | .plugins _ _ todo => todo.length + 19
  | .forwarding _ _ => callLeft call + 5
  | .routed _ => 4
  | .answered _ => 0

def left (req : Request) (s : State) (i : ℕ) : ℕ :=
  leftAt req.uri.path (s.pc i) (s.loads i).length (s.forward.pc i) + (s.recording i).length

structure Untouched (s t : State) (i : ℕ) : Prop where
  pc : t.pc i = s.pc i
  loaded : (t.mediation i).loaded = (s.mediation i).loaded
  loads : t.loads i = s.loads i
  recording : t.recording i = s.recording i
  call : t.forward.pc i = s.forward.pc i

variable {arrivals : ℕ → Arrival} {hostParses : String → Bool}

theorem Untouched.left_eq {req : Request} {s t : State} {i : ℕ} (h : Untouched s t i) :
    left req t i = left req s i := by
  simp only [left, h.pc, h.loads, h.recording, h.call]

/-- A step of its own takes one from what is left of a request and what it is granted; the
route it is on, or will be on, stays. -/
structure Pays (req : Request) (s t : State) (i : ℕ) : Prop where
  left : left req t i + granted req (s.mediation i) < left req s i + granted req (t.mediation i)
  chain : chain req (t.mediation i) = chain req (s.mediation i)

theorem Pays.untouched {req : Request} {s t t' : State} {i : ℕ} (h : Pays req s t i)
    (ht : t'.mediation = t.mediation) (hu : Untouched t t' i) : Pays req s t' i := by
  refine ⟨?_, ?_⟩
  · rw [hu.left_eq, ht]
    exact h.left
  · rw [ht]
    exact h.chain

def owns (i : ℕ) (e : Event) : Bool := subject e == some i

def callsFor (kind : Act → Bool) (i : ℕ) : Event → Bool
  | .forward (.call j act) => j == i && kind act
  | _ => false

structure Bounded (arrivals : ℕ → Arrival) (tr : List (State × Event)) (u : State) (i : ℕ) :
    Prop where
  steps : tr.countP (fun p => owns i p.2) ≤ 23 + (chain (arrivals i).req (u.mediation i)).length
  connects : tr.countP (fun p => callsFor isConnect i p.2) ≤ 2
  sends : tr.countP (fun p => callsFor isSend i p.2) ≤ 2

/-- The request is in a guest call that never returns. -/
def InGuest (req : Request) (s : State) (i : ℕ) : Prop :=
  ∃ state rs plugin todo, s.pc i = .plugins state rs (plugin :: todo) ∧
    runPlugin plugin req.method req.uri.path = none

theorem kept {s : State} {i : ℕ} (h : InGuest (arrivals i).req s i) (hrec : s.recording i = [])
    {e : Event} (hi : subject e = some i) : next arrivals hostParses s e = none := by
  obtain ⟨state, rs, plugin, todo, hp, hrun⟩ := h
  have hpc : (s.mediation i).pc = .plugins state rs (plugin :: todo) := hp
  cases e with
  | forward a =>
    cases a with
    | call j act =>
      obtain rfl := Option.some.inj hi
      simp [next, forwardable, hp, target]
    | _ => cases hi
  | store state => cases hi
  | setFlag j healthy => cases hi
  | forwarded j =>
    obtain rfl := Option.some.inj hi
    cases hd : s.forward.pc j <;> simp [next, hd, mediate, RequestMediation.next, hpc]
  | step j | health j uptime | load j | page j | elapsed j ms | record j =>
    obtain rfl := Option.some.inj hi
    simp [next, mediate, RequestMediation.next, RequestMediation.pluginStep, hp, hpc, hrec, hrun]

section Whole

open WholeProxy (boot State.begun requestEvents requestLabel)

variable {H : StatePublication.Host} {peers : ℕ → String} {file : StatePublication.FileVersion}
  {dirs : String → CertificateCache.CacheDir} {instant wall : ℕ} {u : WholeProxy.State H}
  {tr : List (WholeProxy.State H × WholeProxy.Event)}

def served (p : Event → Bool) : WholeProxy.Event → Bool
  | .serve e => p e
  | _ => false

def Own (i : ℕ) (_ : WholeProxy.State H) (e : WholeProxy.Event) : Prop := served (owns i) e = true

/-- `run_on_request` returns for request `i`, on the chain it decides on. -/
def GuestsReturn (arrivals : ℕ → Arrival) (u : WholeProxy.State H) (i : ℕ) : Prop :=
  ∀ r, u.serving = some r →
    (runPlugins (chain (arrivals i).req (r.mediation i)) (arrivals i).req.method
      (arrivals i).req.uri.path).isSome

structure Served (arrivals : ℕ → Arrival) (u : WholeProxy.State H) (i : ℕ) : Prop where
  live : u.begun i ≠ none → ∃ r, u.serving = some r
  mediated : ∀ r, u.serving = some r → AllMediated arrivals r
  completed : ∀ r, u.serving = some r →
    (i ∈ r.completed ↔ (r.answer i).isSome ∧ r.recording i = [])
  silent : ∀ r, u.serving = some r → r.answer i = none → r.recording i = []

def rank (req : Request) (i : ℕ) (r : State) : ℕ :=
  left req r i + ((chain req (r.mediation i)).length - granted req (r.mediation i))

theorem GuestsReturn.step {s : WholeProxy.State H} {r r' : State} {i : ℕ}
    (h : GuestsReturn arrivals s i) (hr : s.serving = some r)
    (hpays : Pays (arrivals i).req r r' i) :
    GuestsReturn arrivals { s with serving := some r' } i := by
  intro r'' hr''
  obtain rfl := Option.some.inj hr''
  rw [hpays.chain]
  exact h r hr

end Whole

end RequestProgress
