import PrismProxy.ProxyServerSteps

/-! # The three accept loops

`run_accept_loop`, the redirect server and the challenge server each wait on a listener of
their own. They differ in what a failed accept does and in whether there is a shutdown to
wait for. -/
namespace AcceptLoops

open TransitionRuns ProxyConfig

variable {α : Type}

/-- What a loop wakes up to: an outcome of `accept`, or the shutdown signal. -/
inductive ListenerEvent (α : Type) where
  | accept (result : Except String α)
  | shutdown
  deriving DecidableEq

/-- `onError`: what the loop returns when an accept fails, none if it goes on. `onShutdown`:
what it returns when told to shut down, none if nobody can tell it. -/
structure AcceptLoop where
  onError : String → Option (Except ProxyError Unit)
  onShutdown : Option (Except ProxyError Unit)

/-- The `?` on the outcome of `accept` leaves the loop. -/
def runAcceptLoop : AcceptLoop where
  onError e := some (.error (.io e))
  onShutdown := some (.ok ())

def runHttpRedirectServerWithListener : AcceptLoop where
  onError _ := none
  onShutdown := none

def runChallengeServerWithListener : AcceptLoop where
  onError _ := none
  onShutdown := some (.ok ())

/-- `spawned` are the connections given to a handler, in the order of the spawns. -/
structure State (α : Type) where
  spawned : List α
  result : Option (Except ProxyError Unit)
  deriving DecidableEq

def boot : State α := ⟨[], none⟩

def AcceptLoop.next (loop : AcceptLoop) (s : State α) : ListenerEvent α → Option (State α)
  | .accept r =>
    match s.result, r with
    | none, .ok conn => some { s with spawned := s.spawned ++ [conn] }
    | none, .error e => some { s with result := loop.onError e }
    | some _, _ => none
  | .shutdown =>
    match s.result, loop.onShutdown with
    | none, some r => some { s with result := some r }
    | _, _ => none

def accepted (results : List (Except String α)) : List α := results.filterMap Except.toOption

@[simp] theorem accepted_ok (conn : α) (results : List (Except String α)) :
    accepted (.ok conn :: results) = conn :: accepted results := rfl

@[simp] theorem accepted_error (e : String) (results : List (Except String α)) :
    accepted (.error e :: results) = accepted results := rfl

/-- At every point of the sequence the loop waits for the next event, with one handler for
each connection accepted so far. -/
def Accepts (loop : AcceptLoop) (results : List (Except String α)) : Prop :=
  ∀ seen, seen <+: results →
    exec loop.next boot (seen.map .accept) = some ⟨accepted seen, none⟩

/-- It also returns `Ok` when the shutdown comes then, and so for no other reason. -/
structure Survives (loop : AcceptLoop) (results : List (Except String α)) : Prop where
  accepting : Accepts loop results
  returns : exec loop.next boot (results.map .accept ++ [.shutdown]) =
    some ⟨accepted results, some (.ok ())⟩

theorem exec_accepts (loop : AcceptLoop) {results : List (Except String α)} (spawned : List α)
    (h : ∀ e, .error e ∈ results → loop.onError e = none) :
    exec loop.next ⟨spawned, none⟩ (results.map .accept) =
      some ⟨spawned ++ accepted results, none⟩ := by
  induction results generalizing spawned with
  | nil => simp [exec, accepted]
  | cons r results ih =>
    have hrest : ∀ e, .error e ∈ results → loop.onError e = none :=
      fun e he => h e (List.mem_cons_of_mem _ he)
    cases r with
    | ok conn =>
      have hstep : loop.next ⟨spawned, none⟩ (.accept (.ok conn)) =
          some ⟨spawned ++ [conn], none⟩ := rfl
      rw [List.map_cons, exec, hstep, Option.bind_some, ih _ hrest]
      simp
    | error e =>
      have hstep : loop.next ⟨spawned, none⟩ (.accept (.error e)) = some ⟨spawned, none⟩ := by
        simp only [AcceptLoop.next, h e (by simp)]
      rw [List.map_cons, exec, hstep, Option.bind_some, ih _ hrest, accepted_error]

theorem accepts_of_tolerant {loop : AcceptLoop} {results : List (Except String α)}
    (h : ∀ e, .error e ∈ results → loop.onError e = none) : Accepts loop results := by
  intro seen hseen
  exact exec_accepts loop [] fun e he => h e (hseen.subset he)

theorem survives_of_tolerant {loop : AcceptLoop} {results : List (Except String α)}
    (h : ∀ e, .error e ∈ results → loop.onError e = none)
    (hs : loop.onShutdown = some (.ok ())) : Survives loop results := by
  refine ⟨accepts_of_tolerant h, ?_⟩
  have hall := exec_accepts loop [] h
  rw [exec_append, boot, hall]
  simp [exec, AcceptLoop.next, hs]

theorem Accepts.tolerant {loop : AcceptLoop} {results : List (Except String α)}
    (h : Accepts loop results) {e : String} (he : .error e ∈ results) : loop.onError e = none := by
  obtain ⟨before, after, rfl⟩ := List.append_of_mem he
  have hbefore := h before (List.prefix_append ..)
  have hthere := h (before ++ [.error e]) ⟨after, by simp⟩
  rw [List.map_append, exec_append, hbefore] at hthere
  have hlast : (⟨accepted before, loop.onError e⟩ : State α) =
      ⟨accepted (before ++ [.error e]), none⟩ := Option.some.inj hthere
  exact congrArg State.result hlast

theorem runAcceptLoop_survives_iff {results : List (Except String α)} :
    Survives runAcceptLoop results ↔ ∀ e, .error e ∉ results := by
  constructor
  · intro h e he
    cases h.accepting.tolerant he
  · intro h
    exact survives_of_tolerant (fun e he => absurd he (h e)) rfl

/-- `run_accept_loop` outlives exactly the sequences in which no accept fails, the other two loops
outlive every sequence. Nobody can tell the redirect server to shut down. -/
theorem survives_iff (results : List (Except String α)) :
    (Survives runAcceptLoop results ↔ ∀ e, .error e ∉ results) ∧
    Survives runChallengeServerWithListener results ∧
    Accepts runHttpRedirectServerWithListener results :=
  ⟨runAcceptLoop_survives_iff, survives_of_tolerant (fun _ _ => rfl) rfl,
    accepts_of_tolerant fun _ _ => rfl⟩

/-- One aborted connection ends the proxy: the connection after it is not accepted. -/
theorem aborted_connection_ends : ¬ ∀ results : List (Except String ℕ),
    Survives runAcceptLoop results := by
  intro h
  let results : List (Except String ℕ) := [.ok 0, .error "ECONNABORTED", .ok 1]
  have haborted : runAcceptLoop.onError "ECONNABORTED" = none :=
    (h results).accepting.tolerant (by simp [results])
  cases haborted

open ProxyServer StatePublication

variable {H : Host}

def Listening (s : ProxyServer.State H) : Prop := s.main = .serving ∨ ∃ r, s.main = .returned r

def result (s : ProxyServer.State H) : Option (Except ProxyError Unit) :=
  match s.main with
  | .returned r => some r
  | _ => none

def listenerEvent : ProxyServer.Event → Option (ListenerEvent Unit)
  | .accept => some (.accept (.ok ()))
  | .acceptError e => some (.accept (.error e))
  | .shutdown => some .shutdown
  | _ => none

def view (s : ProxyServer.State H) : State Unit :=
  ⟨List.replicate (s.pending + s.handed.length) (), result s⟩

theorem view_congr {s t : ProxyServer.State H} (hm : t.main = s.main)
    (hc : t.pending + t.handed.length = s.pending + s.handed.length) : view t = view s := by
  rw [view, view, hc, result, result, hm]

theorem serving_of_accepting {s : ProxyServer.State H} (h : s.accepting = true) :
    s.main = .serving := by
  unfold ProxyServer.State.accepting at h
  split at h
  · assumption
  · cases h

theorem Listening.no_main {s : ProxyServer.State H} (h : Listening s) (r : Reply) :
    mainStep s s.main r = none := by
  rcases h with h | ⟨result, h⟩ <;> rw [h]
  · rcases r with _ | (_ | _) | _ <;> rfl
  · rcases r with _ | (_ | _) | _ <;> rfl

theorem listening_step {s t : ProxyServer.State H} {e : Event} (hs : Listening s)
    (h : next s e = some t) : Listening t := by
  cases step_of_next h with
  | main r eff he =>
    rw [hs.no_main] at he
    cases he
  | reload r pc eff hpc he => cases eff <;> exact hs
  | renewal r pc eff hpc he => cases eff <;> exact hs
  | acceptError m _ => exact Or.inr ⟨_, rfl⟩
  | shutdown _ => exact Or.inr ⟨_, rfl⟩
  | _ => exact hs

theorem dispatch_handlers {s t : ProxyServer.State H} (h : next s .dispatch = some t) :
    t.pending + t.handed.length = s.pending + s.handed.length := by
  simp only [next, ProxyServer.State.dispatch] at h
  split at h
  · rename_i n p rest hn _
    cases h
    simp only [List.length_cons, hn]
    omega
  · cases h

theorem unheard_step {s t : ProxyServer.State H} {e : Event} (hs : Listening s)
    (h : next s e = some t) (he : listenerEvent e = none) : view t = view s := by
  cases step_of_next h with
  | main r eff hr =>
    rw [hs.no_main] at hr
    cases hr
  | reload r pc eff hpc _ => cases eff <;> exact view_congr rfl rfl
  | renewal r pc eff hpc _ => cases eff <;> exact view_congr rfl rfl
  | dispatch n p _ => exact view_congr rfl (dispatch_handlers h)
  | accept | acceptError m | shutdown => cases he
  | _ => exact view_congr rfl rfl

theorem heard_step {s t : ProxyServer.State H} {e : Event} {a : ListenerEvent Unit}
    (h : next s e = some t) (he : listenerEvent e = some a) :
    runAcceptLoop.next (view s) a = some (view t) := by
  have waits : s.accepting = true → view s = ⟨(view s).spawned, none⟩ := by
    intro ha
    simp only [view, result, serving_of_accepting ha]
  cases step_of_next h with
  | accept ha =>
    cases he
    have hmore : (view s).spawned ++ [()] =
        List.replicate (s.pending + 1 + s.handed.length) () := by
      rw [Nat.add_right_comm]
      exact List.replicate_succ'.symm
    rw [waits ha]
    simp only [AcceptLoop.next, hmore]
    simp only [view, result, serving_of_accepting ha]
  | acceptError m ha =>
    cases he
    rw [waits ha]
    rfl
  | shutdown ha =>
    cases he
    rw [waits ha]
    rfl
  | _ => cases he

def listening (H : Host) :
    Simulation (ProxyServer.next (H := H)) (AcceptLoop.next (α := Unit) runAcceptLoop) where
  ok _ _ := True
  inv := Listening
  view := view
  label _ := listenerEvent
  keeps _ _ _ hs _ h := listening_step hs h
  idle _ _ _ hs _ h he := unheard_step hs h he
  move _ _ _ _ _ _ h he := heard_step h he

def isAccept : Event → Bool
  | .accept => true
  | _ => false

def Undisturbed (_ : ProxyServer.State H) (e : Event) : Prop :=
  ∀ a, listenerEvent e = some a → a = .accept (.ok ())

def arrivals (tr : List (ProxyServer.State H × Event)) : List (Except String Unit) :=
  List.replicate (tr.countP fun p => isAccept p.2) (.ok ())

theorem trace_undisturbed {tr : List (ProxyServer.State H × Event)} (h : Obeys Undisturbed tr) :
    ((listening H).trace tr).map Prod.snd = (arrivals tr).map .accept := by
  induction tr with
  | nil => rfl
  | cons p tr ih =>
    obtain ⟨hp, htr⟩ := obeys_cons.mp h
    have hrest := ih htr
    simp only [Simulation.trace, listening, arrivals] at hrest
    rcases p with ⟨s, e⟩
    cases e with
    | accept =>
      simpa [Simulation.trace, listening, listenerEvent, arrivals, isAccept,
        List.replicate_succ] using hrest
    | acceptError e => cases hp _ rfl
    | shutdown => cases hp _ rfl
    | _ => simpa [Simulation.trace, listening, listenerEvent, arrivals, isAccept] using hrest

theorem server_survives {s u : ProxyServer.State H} {tr : List (ProxyServer.State H × Event)}
    (hs : s.main = .serving) (h : Run ProxyServer.next s tr u) (hok : Obeys Undisturbed tr) :
    result u = none ∧ u.pending + u.handed.length =
      s.pending + s.handed.length + tr.countP fun p => isAccept p.2 := by
  have hreplay := ((listening H).run h (Or.inl hs) fun _ _ => trivial).exec_eq
  rw [trace_undisturbed hok] at hreplay
  have hview : view s = ⟨(view s).spawned, none⟩ := by simp only [view, result, hs]
  have hgood : ∀ e, .error e ∈ arrivals tr → runAcceptLoop.onError e = none := by
    intro e he
    cases List.eq_of_mem_replicate he
  have hall := exec_accepts runAcceptLoop (view s).spawned hgood
  rw [← hview] at hall
  have hu : view u = ⟨(view s).spawned ++ accepted (arrivals tr), none⟩ :=
    Option.some.inj (hreplay.symm.trans hall)
  have hcount := congrArg (fun v => v.spawned.length) hu
  refine ⟨congrArg State.result hu, ?_⟩
  simpa [view, arrivals, accepted, Except.toOption, List.filterMap_replicate] using hcount

end AcceptLoops
