import Mathlib.Data.List.Basic
import Mathlib.Data.List.Chain

/-! # Histories: runs of one outcome, and what the latest of two conditions was

A history is a list, oldest outcome first. A counter that another outcome resets measures the
run the history ends with; a flag that one condition sets and another clears remembers which
of them held last. -/
namespace HistoryRuns

variable {α : Type*}

/-- The last `n` outcomes are all `a`. -/
def EndsRun (a : α) (n : ℕ) (history : List α) : Prop := List.replicate n a <:+ history

/-- At some point of the history `set` held, and at no later one `reset`. -/
def Latched (set reset : List α → Prop) (history : List α) : Prop :=
  ∃ before after, history = before ++ after ∧ set before ∧
    ∀ mid, mid ≠ [] → mid <+: after → ¬ reset (before ++ mid)

/-- `n` is how many outcomes equal to `a` the history ends with. -/
def RunLength (a : α) (n : ℕ) (history : List α) : Prop := ∀ k, EndsRun a k history ↔ k ≤ n

theorem endsRun_zero (a : α) (history : List α) : EndsRun a 0 history := List.nil_suffix

theorem endsRun_snoc (a b : α) (n : ℕ) (history : List α) :
    EndsRun a (n + 1) (history ++ [b]) ↔ b = a ∧ EndsRun a n history := by
  rw [EndsRun, List.replicate_succ', List.suffix_concat_iff]
  constructor
  · rintro (h | ⟨t, h, ht⟩)
    · simp at h
    · obtain ⟨rfl, hb⟩ := List.append_inj' h rfl
      exact ⟨(List.singleton_inj.mp hb).symm, ht⟩
  · rintro ⟨rfl, h⟩
    exact Or.inr ⟨_, rfl, h⟩

theorem runLength_nil (a : α) : RunLength a 0 [] := by
  intro k
  cases k with
  | zero => exact iff_of_true (endsRun_zero a []) (Nat.le_refl 0)
  | succ k => simp [EndsRun, List.replicate_succ]

theorem RunLength.same {a : α} {n : ℕ} {history : List α} (h : RunLength a n history) :
    RunLength a (n + 1) (history ++ [a]) := by
  intro k
  cases k with
  | zero => exact iff_of_true (endsRun_zero a _) (Nat.zero_le _)
  | succ k => rw [endsRun_snoc, h k, Nat.succ_le_succ_iff, eq_self, true_and]

theorem runLength_other {a b : α} (hne : b ≠ a) (history : List α) :
    RunLength a 0 (history ++ [b]) := by
  intro k
  cases k with
  | zero => exact iff_of_true (endsRun_zero a _) (Nat.le_refl 0)
  | succ k => simp [endsRun_snoc, hne]

theorem latched_nil (set reset : List α → Prop) : Latched set reset [] ↔ set [] := by
  constructor
  · rintro ⟨before, after, h, hset, _⟩
    obtain ⟨rfl, rfl⟩ := List.append_eq_nil_iff.mp h.symm
    exact hset
  · intro h
    refine ⟨[], [], rfl, h, ?_⟩
    intro mid hne hp
    exact absurd (List.prefix_nil.mp hp) hne

theorem latched_snoc (set reset : List α → Prop) (history : List α) (a : α) :
    Latched set reset (history ++ [a]) ↔
      set (history ++ [a]) ∨ (Latched set reset history ∧ ¬ reset (history ++ [a])) := by
  constructor
  · rintro ⟨before, after, h, hset, hno⟩
    rcases List.eq_nil_or_concat' after with rfl | ⟨rest, b, rfl⟩
    · rw [List.append_nil] at h
      exact Or.inl (h ▸ hset)
    · rw [← List.append_assoc] at h
      obtain ⟨rfl, hb⟩ := List.append_inj' h rfl
      obtain rfl := List.singleton_inj.mp hb
      refine Or.inr ⟨⟨before, rest, rfl, hset, ?_⟩, ?_⟩
      · intro mid hne hp
        exact hno mid hne (hp.trans (List.prefix_append ..))
      · rw [List.append_assoc]
        exact hno _ (by simp) (List.prefix_refl _)
  · rintro (h | ⟨⟨before, after, rfl, hset, hno⟩, hlast⟩)
    · refine ⟨_, [], (List.append_nil _).symm, h, ?_⟩
      intro mid hne hp
      exact absurd (List.prefix_nil.mp hp) hne
    · refine ⟨before, after ++ [a], List.append_assoc .., hset, ?_⟩
      intro mid hne hp
      rcases List.prefix_concat_iff.mp hp with rfl | hp
      · rwa [← List.append_assoc]
      · exact hno mid hne hp

theorem latched_of_set {set reset : List α → Prop} {history : List α} (h : set history) :
    Latched set reset history := by
  refine ⟨history, [], (List.append_nil _).symm, h, ?_⟩
  intro mid hne hp
  exact absurd (List.prefix_nil.mp hp) hne

theorem not_latched_of_reset {set reset : List α → Prop} {history : List α}
    (hs : ¬ set history) (hr : reset history) : ¬ Latched set reset history := by
  rintro ⟨before, after, rfl, hset, hno⟩
  by_cases ha : after = []
  · subst ha
    rw [List.append_nil] at hs
    exact hs hset
  · exact hno after ha (List.prefix_refl _) hr

theorem endsRun_unique {a b : α} {m n : ℕ} {history : List α} (hm : 0 < m) (hn : 0 < n)
    (ha : EndsRun a m history) (hb : EndsRun b n history) : a = b := by
  obtain ⟨before, rfl⟩ := ha
  obtain ⟨before', heq⟩ := hb
  have hlast := congrArg List.getLast? heq
  simpa [List.getLast?_append, List.getLast?_replicate, hm.ne', hn.ne', eq_comm] using hlast

theorem endsRun_reverse {a : α} {recent older : List α} (h : ∀ b ∈ recent, b = a) :
    EndsRun a recent.length (recent ++ older).reverse := by
  rw [EndsRun, ← List.reverse_replicate, List.reverse_suffix, ← List.eq_replicate_of_mem h]
  exact List.prefix_append _ _

/-- Newest first, each at most `gap` after the one before it. -/
def Spaced (gap : ℕ) (times : List ℕ) : Prop :=
  times.IsChain fun later earlier => later ≤ earlier + gap

theorem spaced_recent {gap since first : ℕ} (hf : first ≤ since) (n : ℕ) {times : List ℕ}
    (h : Spaced gap (times ++ [first])) {newest : ℕ}
    (hn : (times ++ [first]).head? = some newest) (hlate : since + n * gap < newest) :
    ∃ recent older, times = recent ++ older ∧ recent.length = n + 1 ∧
      ∀ t ∈ recent, since < t := by
  induction n generalizing times newest with
  | zero =>
    cases times with
    | nil =>
      obtain rfl := Option.some.inj hn
      omega
    | cons t rest =>
      obtain rfl := Option.some.inj hn
      exact ⟨[t], rest, rfl, rfl, by simpa using hlate⟩
  | succ n ih =>
    rw [Nat.succ_mul] at hlate
    cases times with
    | nil =>
      obtain rfl := Option.some.inj hn
      omega
    | cons t rest =>
      obtain rfl := Option.some.inj hn
      obtain ⟨before, hb⟩ : ∃ before, (rest ++ [first]).head? = some before := by
        cases rest <;> exact ⟨_, rfl⟩
      rw [Spaced, List.cons_append, List.isChain_cons] at h
      have hgap := h.1 before hb
      obtain ⟨recent, older, rfl, hlen, hall⟩ := ih h.2 hb (by omega)
      refine ⟨t :: recent, older, rfl, by simp [hlen], ?_⟩
      simpa using ⟨by omega, hall⟩

end HistoryRuns
