import Mathlib.Order.Lattice
import Mathlib.Data.List.Basic
import Mathlib.Logic.Function.Basic
import PrismProxy.TransitionRuns

/-! # A register that several writers publish snapshots into

A source goes through versions. A writer takes a snapshot of it, works for as long as it
likes, and then publishes what it took, while other writers do the same and the source moves
on. The question is when the register never goes back to an older version. -/
namespace SnapshotRegister

open TransitionRuns

variable {V W : Type*} [LinearOrder V] [DecidableEq W]

structure Snapshot (V : Type*) where
  version : V
  readAt : ℕ

/-- The log lists the publications, newest first. -/
structure Register (V W : Type*) where
  current : V
  log : List V
  held : W → Option (Snapshot V)

inductive Event (V W : Type*) where
  | write (v : V)
  | take (w : W)
  | drop (w : W)
  | publish (w : W)

def next (r : Register V W) : Event V W → Option (Register V W)
  | .write v => if r.current < v then some { r with current := v } else none
  | .take w =>
    some { r with held := Function.update r.held w (some ⟨r.current, r.log.length⟩) }
  | .drop w => some { r with held := Function.update r.held w none }
  | .publish w => (r.held w).map fun h =>
      { r with log := h.version :: r.log, held := Function.update r.held w none }

/-- The publications after the first `n`, newest first. -/
def since (log : List V) (n : ℕ) : List V := log.take (log.length - n)

/-- Nobody has published, since this writer took its snapshot, anything newer than it. -/
def NotOvertaken (r : Register V W) : Event V W → Prop
  | .publish w => ∀ h, r.held w = some h → ∀ v ∈ since r.log h.readAt, v ≤ h.version
  | _ => True

/-- No publication is older than one made before it. -/
def Ordered (log : List V) : Prop := log.Pairwise (· ≥ ·)

structure Invariant (r : Register V W) : Prop where
  published : ∀ v ∈ r.log, v ≤ r.current
  held_bound : ∀ w h, r.held w = some h → h.readAt ≤ r.log.length
  before_take : ∀ w h, r.held w = some h →
    ∀ v ∈ r.log.drop (r.log.length - h.readAt), v ≤ h.version
  held_current : ∀ w h, r.held w = some h → h.version ≤ r.current

omit [LinearOrder V] in
theorem mem_log_iff {log : List V} {n : ℕ} {v : V} :
    v ∈ log ↔ v ∈ since log n ∨ v ∈ log.drop (log.length - n) := by
  rw [since, ← List.mem_append, List.take_append_drop]

theorem next_invariant {r r' : Register V W} {e : Event V W} (hr : Invariant r)
    (h : next r e = some r') : Invariant r' := by
  cases e with
  | write v =>
    simp only [next, Option.ite_none_right_eq_some, Option.some.injEq] at h
    obtain ⟨hv, rfl⟩ := h
    exact ⟨fun u hu => (hr.published u hu).trans hv.le, hr.held_bound, hr.before_take,
      fun w k hk => (hr.held_current w k hk).trans hv.le⟩
  | take w =>
    obtain rfl := Option.some.inj h
    refine ⟨hr.published, ?_, ?_, ?_⟩ <;> intro w' k hk <;> by_cases hw : w' = w
    · subst hw; obtain rfl : ⟨r.current, r.log.length⟩ = k := by simpa using hk
      exact Nat.le_refl _
    · exact hr.held_bound w' k (by simpa [hw] using hk)
    · subst hw; obtain rfl : ⟨r.current, r.log.length⟩ = k := by simpa using hk
      simpa using hr.published
    · exact hr.before_take w' k (by simpa [hw] using hk)
    · subst hw; obtain rfl : ⟨r.current, r.log.length⟩ = k := by simpa using hk
      exact le_rfl
    · exact hr.held_current w' k (by simpa [hw] using hk)
  | drop w =>
    obtain rfl := Option.some.inj h
    have old : ∀ w' k, Function.update r.held w none w' = some k → r.held w' = some k := by
      intro w' k hk
      by_cases hw : w' = w
      · subst hw; simp at hk
      · simpa [hw] using hk
    exact ⟨hr.published, fun w' k hk => hr.held_bound w' k (old w' k hk),
      fun w' k hk => hr.before_take w' k (old w' k hk),
      fun w' k hk => hr.held_current w' k (old w' k hk)⟩
  | publish w =>
    obtain ⟨h', hh, rfl⟩ := Option.map_eq_some_iff.mp h
    have old : ∀ w' k, Function.update r.held w none w' = some k → r.held w' = some k := by
      intro w' k hk
      by_cases hw : w' = w
      · subst hw; simp at hk
      · simpa [hw] using hk
    refine ⟨?_, ?_, ?_, fun w' k hk => hr.held_current w' k (old w' k hk)⟩
    · intro v hv
      rcases List.mem_cons.mp hv with rfl | hv
      · exact hr.held_current w h' hh
      · exact hr.published v hv
    · intro w' k hk
      exact Nat.le_succ_of_le (hr.held_bound w' k (old w' k hk))
    · intro w' k hk
      -- one more publication on top: the part before the snapshot is the same list
      have hb := hr.held_bound w' k (old w' k hk)
      have hdrop : (h'.version :: r.log).length - k.readAt = (r.log.length - k.readAt) + 1 := by
        simp only [List.length_cons]; omega
      rw [hdrop, List.drop_succ_cons]
      exact hr.before_take w' k (old w' k hk)

/-- A publication keeps the order exactly when its writer was not overtaken: whatever was
published before the snapshot was taken cannot be newer than the snapshot. -/
theorem next_ordered_iff {r r' : Register V W} {e : Event V W} (hr : Invariant r)
    (h : next r e = some r') : Ordered r'.log ↔ Ordered r.log ∧ NotOvertaken r e := by
  cases e with
  | write v =>
    simp only [next, Option.ite_none_right_eq_some, Option.some.injEq] at h
    obtain ⟨_, rfl⟩ := h
    simp [NotOvertaken]
  | take w => obtain rfl := Option.some.inj h; simp [NotOvertaken]
  | drop w => obtain rfl := Option.some.inj h; simp [NotOvertaken]
  | publish w =>
    obtain ⟨k, hk, rfl⟩ := Option.map_eq_some_iff.mp h
    simp only [Ordered, List.pairwise_cons, NotOvertaken, hk, Option.some.injEq]
    constructor
    · rintro ⟨hv, ho⟩
      refine ⟨ho, ?_⟩
      rintro _ rfl v hm
      exact hv v (mem_log_iff.mpr (.inl hm))
    · rintro ⟨ho, hn⟩
      refine ⟨fun v hv => ?_, ho⟩
      rcases (mem_log_iff (n := k.readAt)).mp hv with hv | hv
      · exact hn k rfl v hv
      · exact hr.before_take w k hk v hv

/-- The register never goes back to an older version exactly when no writer publishes a
snapshot after it was overtaken. -/
theorem ordered_iff {r r' : Register V W} {tr : List (Register V W × Event V W)}
    (h : Run next r tr r') (hr : Invariant r) (ho : Ordered r.log) :
    Ordered r'.log ↔ Obeys NotOvertaken tr :=
  h.iff_obeys (P := fun r => Ordered r.log) (fun _ _ _ hi hn => next_invariant hi hn)
    (fun _ _ _ hi hn => next_ordered_iff hi hn) hr ho

theorem Ordered.le_head {v w : V} {log : List V} (h : Ordered (v :: log)) (hw : w ∈ v :: log) :
    w ≤ v := by
  rcases List.mem_cons.mp hw with rfl | hw
  · exact le_rfl
  · exact (List.pairwise_cons.mp h).1 w hw

end SnapshotRegister
