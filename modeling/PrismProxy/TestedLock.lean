import Mathlib.Logic.Function.Basic
import PrismProxy.TransitionRuns

/-! # A lock that is tested first and taken afterwards

A process looks whether the lock is there, sets it in a second step, works, removes it and
then cleans up behind itself. Two of them can both find the lock absent, and one can still be
cleaning up when the next has taken it. -/
namespace TestedLock

open TransitionRuns

variable {ι : Type*} [DecidableEq ι]

inductive Phase where
  | idle
  | tested
  | holding
  | leaving
  | finished
  deriving DecidableEq, Repr

structure State (ι : Type*) where
  locked : Bool
  phase : ι → Phase

/-- A blind test finds the lock absent whether it is there or not. -/
inductive Event (ι : Type*) where
  | test (i : ι) (blind : Bool)
  | refuse (i : ι)
  | set (i : ι)
  | giveUp (i : ι)
  | release (i : ι) (removed cleanup : Bool)
  | finish (i : ι)

def State.goto (s : State ι) (i : ι) (phase : Phase) : State ι :=
  { s with phase := Function.update s.phase i phase }

def next (s : State ι) : Event ι → Option (State ι)
  | .test i blind =>
    if s.phase i = .idle ∧ (blind = true ∨ s.locked = false) then some (s.goto i .tested) else none
  | .refuse i => if s.phase i = .idle then some (s.goto i .finished) else none
  | .set i =>
    if s.phase i = .tested then some { s.goto i .holding with locked := true } else none
  | .giveUp i => if s.phase i = .tested then some (s.goto i .finished) else none
  | .release i removed cleanup =>
    if s.phase i = .holding then
      some { s.goto i (if cleanup then .leaving else .finished) with
        locked := s.locked && !removed }
    else none
  | .finish i => if s.phase i = .leaving then some (s.goto i .finished) else none

def Phase.busy : Phase → Bool
  | .tested | .holding | .leaving => true
  | _ => false

/-- A test is not blind and comes when nobody stands between test and taking, or is still
cleaning up. -/
def Careful (s : State ι) : Event ι → Prop
  | .test _ blind => blind = false ∧ ∀ j, s.phase j ≠ .tested ∧ s.phase j ≠ .leaving
  | _ => True

structure Invariant (s : State ι) : Prop where
  exclusive : ∀ i j, (s.phase i).busy = true → (s.phase j).busy = true → i = j
  locked : ∀ i, s.phase i = .holding → s.locked = true

theorem Invariant.goto {s t : State ι} {i : ι} {phase : Phase} (h : Invariant s)
    (hp : t.phase = (s.goto i phase).phase)
    (hb : phase.busy = true → ∀ j, (s.phase j).busy = true → j = i)
    (hl : ∀ j, t.phase j = .holding → t.locked = true) : Invariant t := by
  refine ⟨?_, hl⟩
  have hbusy : ∀ j, (t.phase j).busy = true →
      (j = i ∧ phase.busy = true) ∨ (s.phase j).busy = true := by
    intro j hj
    rw [hp] at hj
    by_cases hji : j = i
    · subst hji
      simp only [State.goto, Function.update_self] at hj
      exact Or.inl ⟨rfl, hj⟩
    · simp only [State.goto, Function.update_of_ne hji] at hj
      exact Or.inr hj
  intro j k hj hk
  rcases hbusy j hj with ⟨rfl, hphase⟩ | hj <;> rcases hbusy k hk with ⟨rfl, hphase'⟩ | hk
  · rfl
  · exact (hb hphase k hk).symm
  · exact hb hphase' j hj
  · exact h.exclusive j k hj hk

theorem holding_goto {s : State ι} {i j : ι} {phase : Phase} (hphase : phase ≠ .holding)
    (hj : (s.goto i phase).phase j = .holding) : s.phase j = .holding := by
  by_cases hji : j = i
  · subst hji
    simp only [State.goto, Function.update_self] at hj
    exact absurd hj hphase
  · simpa only [State.goto, Function.update_of_ne hji] using hj

theorem next_invariant {s t : State ι} {e : Event ι} (hs : Invariant s) (hc : Careful s e)
    (h : next s e = some t) : Invariant t := by
  have alone : ∀ i, (s.phase i).busy = true → ∀ j, (s.phase j).busy = true → j = i :=
    fun i hi j hj => hs.exclusive j i hj hi
  cases e with
  | test i blind =>
    obtain ⟨⟨_, hfree⟩, ht⟩ := Option.ite_none_right_eq_some.mp h
    obtain rfl := Option.some.inj ht
    obtain ⟨hlook, hnone⟩ := hc
    have hopen : s.locked = false := by
      rcases hfree with hb | hopen
      · rw [hlook] at hb
        cases hb
      · exact hopen
    refine hs.goto rfl ?_ ?_
    · intro _ j hj
      obtain ⟨htested, hleaving⟩ := hnone j
      cases hp : s.phase j with
      | holding =>
        have hlocked := hs.locked j hp
        rw [hopen] at hlocked
        cases hlocked
      | tested => exact absurd hp htested
      | leaving => exact absurd hp hleaving
      | _ => rw [hp] at hj; cases hj
    · intro j hj
      exact hs.locked j (holding_goto (by simp) hj)
  | refuse i =>
    obtain ⟨_, ht⟩ := Option.ite_none_right_eq_some.mp h
    obtain rfl := Option.some.inj ht
    exact hs.goto rfl (by simp [Phase.busy]) fun j hj => hs.locked j (holding_goto (by simp) hj)
  | set i =>
    obtain ⟨hi, ht⟩ := Option.ite_none_right_eq_some.mp h
    obtain rfl := Option.some.inj ht
    exact hs.goto (t := { s.goto i .holding with locked := true }) rfl
      (fun _ => alone i (by rw [hi]; rfl)) fun _ _ => rfl
  | giveUp i =>
    obtain ⟨_, ht⟩ := Option.ite_none_right_eq_some.mp h
    obtain rfl := Option.some.inj ht
    exact hs.goto rfl (by simp [Phase.busy]) fun j hj => hs.locked j (holding_goto (by simp) hj)
  | release i removed cleanup =>
    obtain ⟨hi, ht⟩ := Option.ite_none_right_eq_some.mp h
    obtain rfl := Option.some.inj ht
    refine hs.goto rfl (fun _ => alone i (by rw [hi]; rfl)) ?_
    intro j hj
    -- the only holder has just let go
    have hold : s.phase j = .holding := holding_goto (by cases cleanup <;> simp) hj
    obtain rfl := hs.exclusive j i (by rw [hold]; rfl) (by rw [hi]; rfl)
    simp only [State.goto, Function.update_self] at hj
    cases cleanup <;> cases hj
  | finish i =>
    obtain ⟨_, ht⟩ := Option.ite_none_right_eq_some.mp h
    obtain rfl := Option.some.inj ht
    exact hs.goto rfl (by simp [Phase.busy]) fun j hj => hs.locked j (holding_goto (by simp) hj)

omit [DecidableEq ι] in
theorem start_invariant (locked : Bool) : Invariant (⟨locked, fun _ => .idle⟩ : State ι) := by
  constructor <;> simp [Phase.busy]

theorem exclusive_of_careful {locked : Bool} {u : State ι} {tr : List (State ι × Event ι)}
    (h : Run next ⟨locked, fun _ => .idle⟩ tr u) (hc : Obeys Careful tr) : Invariant u :=
  h.invariant_of (fun _ _ _ hs hc hn => next_invariant hs hc hn) (start_invariant locked) hc

def Removed : Event ι → Prop
  | .release _ removed _ => removed = true
  | _ => True

/-- Where the lock is there only while its one process holds it, that stays so as long as the
process really removes it. -/
theorem next_owned {s t : State Unit} {e : Event Unit}
    (hs : s.locked = true → s.phase () = .holding) (hr : s.locked = true → Removed e)
    (h : next s e = some t) :
    t.locked = true → t.phase () = .holding := by
  intro hl
  cases e with
  | test i blind =>
    obtain ⟨⟨hi, _⟩, ht⟩ := Option.ite_none_right_eq_some.mp h
    cases ht
    cases (hs hl).symm.trans hi
  | refuse i =>
    obtain ⟨hi, ht⟩ := Option.ite_none_right_eq_some.mp h
    cases ht
    cases (hs hl).symm.trans hi
  | set i =>
    obtain ⟨_, ht⟩ := Option.ite_none_right_eq_some.mp h
    cases ht
    simp [State.goto]
  | giveUp i =>
    obtain ⟨hi, ht⟩ := Option.ite_none_right_eq_some.mp h
    cases ht
    cases (hs hl).symm.trans hi
  | release i removed cleanup =>
    obtain ⟨_, ht⟩ := Option.ite_none_right_eq_some.mp h
    cases ht
    obtain ⟨hlocked, hkept⟩ := Bool.and_eq_true_iff.mp hl
    rw [show removed = true from hr hlocked] at hkept
    cases hkept
  | finish i =>
    obtain ⟨hi, ht⟩ := Option.ite_none_right_eq_some.mp h
    cases ht
    cases (hs hl).symm.trans hi

end TestedLock
