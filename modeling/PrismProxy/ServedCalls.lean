import PrismProxy.RequestServing

/-! # The calls of `forward` among the requests

What `forward` is called with is fixed by the step that calls it, and a request calls it at most
once. Read off at the end of a run, the calls are those of all of it: the requests' use of the
pool is a run of `forward` over calls known from the start. -/
namespace ServedCalls

open TransitionRuns RequestServing
open RequestMediation (Mediated mediated_step)
open UpstreamForward (Call)

def callFor (hostParses : String → Bool) (a : Arrival) (m : RequestMediation.State) : Call :=
  let (upstream, timeoutMs) := m.contacted.head?.getD ("", 0)
  ⟨a.req, upstream, hostParses upstream, timeoutMs, a.clientIp, a.isTls⟩

def callsOf (arrivals : ℕ → Arrival) (hostParses : String → Bool) (s : State) (i : ℕ) : Call :=
  callFor hostParses (arrivals i) (s.mediation i)

def Agrees (calls : ℕ → Call) (arrivals : ℕ → Arrival) (hostParses : String → Bool)
    (s : State) : Prop :=
  ∀ i, (s.mediation i).contacted = [] ∨ calls i = callsOf arrivals hostParses s i

theorem callsOf_agrees (arrivals : ℕ → Arrival) (hostParses : String → Bool) (s : State) :
    Agrees (callsOf arrivals hostParses s) arrivals hostParses s := fun _ => Or.inr rfl

theorem contacted_stable {req : HttpMessage.Request} {m m' : RequestMediation.State}
    {e : RequestMediation.Event} (hm : Mediated req m)
    (h : RequestMediation.next req m e = some m') :
    m.contacted = [] ∨ m'.contacted = m.contacted := by
  cases RequestMediation.next_cases h with
  | forward state rs pc =>
    simp only [Mediated, pc] at hm
    exact Or.inl hm.2.2.2.1
  | _ => exact Or.inr rfl

variable {arrivals : ℕ → Arrival} {hostParses : String → Bool}

def AllMediated (arrivals : ℕ → Arrival) (s : State) : Prop :=
  ∀ i, Mediated (arrivals i).req (s.mediation i)

theorem boot_mediated (arrivals : ℕ → Arrival) (current : ProxyState.AppState) (flags : ℕ → Bool)
    (maxIdlePerHost : ℕ) : AllMediated arrivals (boot current flags maxIdlePerHost) :=
  fun _ => ⟨rfl, rfl, rfl⟩

theorem allMediated_step {s t : State} {e : Event} (hs : AllMediated arrivals s)
    (h : Step arrivals hostParses s e t) : AllMediated arrivals t :=
  mediation_invariant (I := fun i m => Mediated (arrivals i).req m)
    (fun _ _ _ _ hm hn => mediated_step hm hn) hs h

theorem contacted_step {s t : State} {e : Event} (hs : AllMediated arrivals s)
    (h : Step arrivals hostParses s e t) (i : ℕ) :
    (s.mediation i).contacted = [] ∨ (t.mediation i).contacted = (s.mediation i).contacted := by
  have hboth : ∀ j, Mediated (arrivals j).req (t.mediation j) ∧
      ((s.mediation j).contacted = [] ∨
        (t.mediation j).contacted = (s.mediation j).contacted) := by
    refine mediation_invariant (I := fun j m => Mediated (arrivals j).req m ∧
      ((s.mediation j).contacted = [] ∨ m.contacted = (s.mediation j).contacted)) ?_
      (fun j => ⟨hs j, Or.inr rfl⟩) h
    rintro j m a m' ⟨hm, hc⟩ hn
    refine ⟨mediated_step hm hn, ?_⟩
    rcases hc with hc | hc
    · exact Or.inl hc
    · rw [← hc]
      exact contacted_stable hm hn
  exact (hboth i).2

theorem Agrees.before {calls : ℕ → Call} {s t : State} {e : Event} (hs : AllMediated arrivals s)
    (h : Step arrivals hostParses s e t) (ht : Agrees calls arrivals hostParses t) :
    Agrees calls arrivals hostParses s := by
  intro i
  rcases contacted_step hs h i with hnil | hsame
  · exact Or.inl hnil
  · rcases ht i with hnil | hcall
    · exact Or.inl (hsame ▸ hnil)
    · refine Or.inr (hcall.trans ?_)
      simp only [callsOf, callFor, hsame]

theorem callOf_eq {calls : ℕ → Call} {s : State} (hs : AllMediated arrivals s)
    (ha : Agrees calls arrivals hostParses s) {i : ℕ} (hi : (target (s.pc i)).isSome) :
    callOf arrivals hostParses s i = calls i := by
  have hm := hs i
  cases hp : (s.mediation i).pc with
  | forwarding upstream timeoutMs =>
    simp only [Mediated, hp] at hm
    obtain ⟨hc, _⟩ := hm
    rcases ha i with hnil | hcall
    · rw [hnil] at hc
      cases hc
    · rw [hcall]
      simp [callOf, callsOf, callFor, State.pc, target, hp, hc]
  | _ => simp [State.pc, hp, target] at hi

theorem next_calls {calls : ℕ → Call} {s : State} (hs : AllMediated arrivals s)
    (ha : Agrees calls arrivals hostParses s) {e : UpstreamForward.Event}
    (he : forwardable s e = true) :
    UpstreamForward.next (callOf arrivals hostParses s) s.forward e =
      UpstreamForward.next calls s.forward e := by
  cases e with
  | call i act => simp only [UpstreamForward.next, callOf_eq hs ha he]
  | _ => rfl

def forwardEvent : Event → Option UpstreamForward.Event
  | .forward e => some e
  | _ => none

theorem forward_step {calls : ℕ → Call} {s t : State} {e : Event} (hs : AllMediated arrivals s)
    (ha : Agrees calls arrivals hostParses s) (h : Step arrivals hostParses s e t) :
    (forwardEvent e = none ∧ t.forward = s.forward) ∨
      ∃ a, forwardEvent e = some a ∧ UpstreamForward.next calls s.forward a = some t.forward := by
  cases h with
  | forward a f he hf =>
    rw [next_calls hs ha he] at hf
    exact Or.inr ⟨a, rfl, hf⟩
  | record i u us hr => exact Or.inl ⟨rfl, write_forward s i u us⟩
  | _ => exact Or.inl ⟨rfl, rfl⟩

/-- Only the requests of `called` call `forward`. -/
def CalledIn (called : ℕ → Prop) (_ : UpstreamForward.State) (e : UpstreamForward.Event) : Prop :=
  ∀ i act, e = .call i act → called i

theorem contacted_of_forwardable {s : State} (hs : AllMediated arrivals s) {i : ℕ}
    {act : UpstreamForward.Act} (hi : forwardable s (.call i act) = true) :
    (s.mediation i).contacted ≠ [] := by
  have hm := hs i
  cases hp : (s.mediation i).pc with
  | forwarding upstream timeoutMs =>
    simp only [Mediated, hp] at hm
    simp [hm.1]
  | _ => simp [forwardable, State.pc, hp, target] at hi

theorem forward_run {current : ProxyState.AppState} {flags : ℕ → Bool} {maxIdlePerHost : ℕ}
    {tr : List (State × Event)} {u : State}
    (h : Run (next arrivals hostParses) (boot current flags maxIdlePerHost) tr u)
    {calls : ℕ → Call} {called : ℕ → Prop} (ha : Agrees calls arrivals hostParses u)
    (hc : ∀ i, (u.mediation i).contacted ≠ [] → called i) :
    ∃ tr', tr'.map Prod.snd = tr.filterMap (fun p => forwardEvent p.2) ∧
      Obeys (CalledIn called) tr' ∧
      Run (UpstreamForward.next calls) (UpstreamForward.boot maxIdlePerHost) tr' u.forward := by
  induction h with
  | nil => exact ⟨[], rfl, obeys_nil _, .nil⟩
  | @snoc tr s e t hr hn ih =>
    have hstep := step_of_next _ _ hn
    have hs : AllMediated arrivals s :=
      hr.invariant (fun _ _ _ hi hn => allMediated_step hi (step_of_next _ _ hn))
        (boot_mediated arrivals current flags maxIdlePerHost)
    have hbefore := ha.before hs hstep
    have hkeep : ∀ i, (s.mediation i).contacted ≠ [] → (t.mediation i).contacted ≠ [] := by
      intro i hi
      rcases contacted_step hs hstep i with hnil | hsame
      · exact absurd hnil hi
      · rwa [hsame]
    obtain ⟨tr', hmap, hobeys, hrun⟩ := ih hbefore fun i hi => hc i (hkeep i hi)
    rw [List.filterMap_append, ← hmap]
    rcases forward_step hs hbefore hstep with ⟨hl, heq⟩ | ⟨a, hl, hf⟩
    · rw [heq]
      exact ⟨tr', by simp [hl], hobeys, hrun⟩
    · refine ⟨tr' ++ [(s.forward, a)], by simp [hl], obeys_append.mpr ⟨hobeys, ?_⟩, hrun.snoc hf⟩
      rw [obeys_cons]
      refine ⟨?_, obeys_nil _⟩
      rintro i act rfl
      cases hstep with
      | forward b f he _ =>
        obtain rfl := Option.some.inj hl
        exact hc i (hkeep i (contacted_of_forwardable hs he))
      | _ => cases hl

end ServedCalls
