import PrismProxy.TransitionRuns

/-! # Renewing on a grid of ticks

Something made at a known time is looked at once in every period, and made anew when it is
missing or older than a limit. An attempt can fail and then changes nothing. What is kept is the
time the current one was made. -/
namespace PeriodicRenewal

open TransitionRuns

inductive Outcome where
  | skipped
  | failed
  | renewed (time : ℕ)
  deriving DecidableEq, Repr

structure Tick where
  now : ℕ
  outcome : Outcome
  deriving DecidableEq, Repr

def Tick.attempted (t : Tick) : Bool := t.outcome != .skipped

def due (limit : ℕ) (kept : Option ℕ) (now : ℕ) : Bool :=
  match kept with
  | none => true
  | some time => time + limit < now

def after (kept : Option ℕ) : Outcome → Option ℕ
  | .renewed time => some time
  | .skipped | .failed => kept

/-- A tick attempts a renewal exactly when one is due. -/
def next (limit : ℕ) (kept : Option ℕ) (t : Tick) : Option (Option ℕ) :=
  if t.attempted = due limit kept t.now then some (after kept t.outcome) else none

/-- The tick decides within the period it starts, and a renewal is made within it. -/
structure InPeriod (origin period k : ℕ) (t : Tick) : Prop where
  begun : origin + k * period ≤ t.now
  ended : t.now < origin + (k + 1) * period
  made : ∀ time, t.outcome = .renewed time → t.now ≤ time ∧ time < origin + (k + 1) * period

def OnGrid (origin period : ℕ) (ticks : List (Option ℕ × Tick)) : Prop :=
  ∀ k p, ticks[k]? = some p → InPeriod origin period k p.2

/-- No more than `f` attempts in a row fail. -/
def AtMostFailures (f : ℕ) (ticks : List (Option ℕ × Tick)) : Prop :=
  ∀ row, row <:+: (ticks.filter fun p => p.2.attempted) →
    (∀ p ∈ row, p.2.outcome = .failed) → row.length ≤ f

variable {limit origin period f i j : ℕ} {kept kept' : Option ℕ} {p q : Option ℕ × Tick}
  {ticks rest : List (Option ℕ × Tick)}

theorem next_eq {t : Tick} (h : next limit kept t = some kept') :
    t.attempted = due limit kept t.now ∧ kept' = after kept t.outcome := by
  unfold next at h
  split at h
  · rename_i hdue
    exact ⟨hdue, (Option.some.inj h).symm⟩
  · cases h

theorem next_of_due {t : Tick} (h : t.attempted = due limit kept t.now) :
    next limit kept t = some (after kept t.outcome) := if_pos h

theorem onGrid_nil : OnGrid origin period [] := by
  intro k p hp
  cases hp

theorem OnGrid.snoc (h : OnGrid origin period ticks)
    (hp : InPeriod origin period ticks.length p.2) : OnGrid origin period (ticks ++ [p]) := by
  intro k q hq
  by_cases hk : k < ticks.length
  · rw [List.getElem?_append_left hk] at hq
    exact h k q hq
  · rw [List.getElem?_append_right (by omega)] at hq
    have hlast : k - ticks.length = 0 := by
      by_contra hne
      rw [List.getElem?_eq_none (by simp; omega)] at hq
      cases hq
    rw [hlast] at hq
    obtain rfl := Option.some.inj hq
    rwa [show k = ticks.length by omega]

theorem exists_between (hij : i < j) (hi : ticks[i]? = some p) (hj : ticks[j]? = some q) :
    ∃ before mid later, ticks = before ++ p :: (mid ++ q :: later) ∧ before.length = i ∧
      i + 1 + mid.length = j := by
  obtain ⟨hin, rfl⟩ := List.getElem?_eq_some_iff.mp hi
  obtain ⟨hjn, rfl⟩ := List.getElem?_eq_some_iff.mp hj
  refine ⟨ticks.take i, (ticks.drop (i + 1)).take (j - (i + 1)), ticks.drop (j + 1), ?_, ?_, ?_⟩
  · have hsplit : (ticks.drop (i + 1)).drop (j - (i + 1)) = ticks[j] :: ticks.drop (j + 1) := by
      rw [List.drop_drop, show i + 1 + (j - (i + 1)) = j by omega, List.drop_eq_getElem_cons hjn]
    rw [← hsplit, List.take_append_drop, ← List.drop_eq_getElem_cons hin, List.take_append_drop]
  · rw [List.length_take]
    omega
  · rw [List.length_take, List.length_drop]
    omega

theorem decided (h : Run (next limit) kept ticks kept') (hi : ticks[i]? = some p) :
    p.2.attempted = due limit p.1 p.2.now := by
  obtain ⟨before, later, rfl⟩ := List.append_of_mem (List.mem_of_getElem? hi)
  obtain ⟨_, _, hn, _⟩ := h.cut
  exact (next_eq hn).1

theorem run_between (h : Run (next limit) kept ticks kept') (hij : i < j)
    (hi : ticks[i]? = some p) (hj : ticks[j]? = some q) :
    ∃ mid, Run (next limit) (after p.1 p.2.outcome) mid q.1 ∧ i + 1 + mid.length = j ∧
      ∀ m r, mid[m]? = some r → ticks[i + 1 + m]? = some r := by
  obtain ⟨before, mid, later, rfl, rfl, hlen⟩ := exists_between hij hi hj
  obtain ⟨_, t, hn, hrest⟩ := h.cut
  obtain ⟨hmid, _⟩ := hrest.cut
  obtain rfl := (next_eq hn).2
  refine ⟨mid, hmid, hlen, ?_⟩
  intro m r hm
  have hlt : m < mid.length := (List.getElem?_eq_some_iff.mp hm).1
  rw [List.getElem?_append_right (by omega),
    show before.length + 1 + m - before.length = m + 1 by omega, List.getElem?_cons_succ,
    List.getElem?_append_left hlt, hm]

theorem due_mono {now later : ℕ} (h : due limit kept now = true) (hle : now ≤ later) :
    due limit kept later = true := by
  unfold due at h ⊢
  cases kept with
  | none => rfl
  | some time =>
    simp only [decide_eq_true_eq] at h ⊢
    omega

theorem OnGrid.now_lt (h : OnGrid origin period ticks) (hij : i < j) (hi : ticks[i]? = some p)
    (hj : ticks[j]? = some q) : p.2.now < q.2.now := by
  have hended := (h i p hi).ended
  have hbegun := (h j q hj).begun
  have hmul : (i + 1) * period ≤ j * period := Nat.mul_le_mul_right period hij
  omega

theorem kept_until (h : Run (next limit) kept ticks kept') (hij : i < j)
    (hi : ticks[i]? = some p) (hj : ticks[j]? = some q)
    (hno : ∀ k r made, i < k → k < j → ticks[k]? = some r → r.2.outcome ≠ .renewed made) :
    q.1 = after p.1 p.2.outcome := by
  obtain ⟨mid, hmid, hlen, hticks⟩ := run_between h hij hi hj
  have hquiet : Obeys (fun _ t => ∀ made, t.outcome ≠ .renewed made) mid := by
    intro r hr made
    obtain ⟨m, hm⟩ := List.mem_iff_getElem?.mp hr
    have hlt : m < mid.length := (List.getElem?_eq_some_iff.mp hm).1
    exact hno _ r made (by omega) (by omega) (hticks m r hm)
  refine hmid.invariant_of (I := fun k => k = after p.1 p.2.outcome) ?_ rfl hquiet
  rintro k t k' rfl hc hn
  obtain ⟨_, rfl⟩ := next_eq hn
  cases ht : t.outcome with
  | renewed made => exact absurd ht (hc made)
  | skipped => rfl
  | failed => rfl

theorem retried (h : Run (next limit) kept ticks kept') (hgrid : OnGrid origin period ticks)
    (hij : i < j) (hi : ticks[i]? = some p) (hj : ticks[j]? = some q)
    (hfail : p.2.outcome = .failed)
    (hno : ∀ k r made, i < k → k < j → ticks[k]? = some r → r.2.outcome ≠ .renewed made) :
    q.2.attempted = true := by
  have hsame : q.1 = p.1 := by
    rw [kept_until h hij hi hj hno, hfail]
    rfl
  have hdue := decided h hi
  rw [Tick.attempted, hfail] at hdue
  rw [decided h hj, hsame]
  exact due_mono hdue.symm (Nat.le_of_lt (hgrid.now_lt hij hi hj))

theorem kept_since (h : Run (next limit) kept ticks kept') (hgrid : OnGrid origin period ticks)
    (hij : i < j) (hi : ticks[i]? = some p) (hj : ticks[j]? = some q) {time : ℕ}
    (hp : p.2.outcome = .renewed time) : ∃ made, q.1 = some made ∧ time ≤ made := by
  obtain ⟨mid, hmid, hlen, hticks⟩ := run_between h hij hi hj
  rw [hp] at hmid
  have hend := ((hgrid i p hi).made time hp).2
  have hnewer : Obeys (fun _ t => ∀ made, t.outcome = .renewed made → time ≤ made) mid := by
    intro r hr made hmade
    obtain ⟨m, hm⟩ := List.mem_iff_getElem?.mp hr
    have hin := hgrid _ r (hticks m r hm)
    have hmul : (i + 1) * period ≤ (i + 1 + m) * period :=
      Nat.mul_le_mul_right period (Nat.le_add_right ..)
    have hbegun := hin.begun
    have hmade' := (hin.made made hmade).1
    omega
  refine hmid.invariant_of (I := fun k => ∃ made, k = some made ∧ time ≤ made) ?_
    ⟨time, rfl, Nat.le_refl _⟩ hnewer
  rintro k t k' ⟨made, rfl, hle⟩ hc hn
  obtain ⟨_, rfl⟩ := next_eq hn
  cases ht : t.outcome with
  | renewed made' => exact ⟨made', rfl, hc made' ht⟩
  | skipped => exact ⟨made, rfl, hle⟩
  | failed => exact ⟨made, rfl, hle⟩

theorem quiet (h : Run (next limit) kept ticks kept') (hgrid : OnGrid origin period ticks)
    (hij : i < j) (hi : ticks[i]? = some p) (hj : ticks[j]? = some q) {time : ℕ}
    (hp : p.2.outcome = .renewed time) (hnow : q.2.now ≤ time + limit) :
    q.2.attempted = false := by
  obtain ⟨made, hmade, hle⟩ := kept_since h hgrid hij hi hj hp
  rw [decided h hj, hmade]
  simp only [due, decide_eq_false_iff_not]
  omega

theorem failed_of_old (h : Run (next limit) kept ticks kept') (hj : ticks[j]? = some q)
    {time : ℕ} (hkept : q.1 = some time) (hold : time + limit < q.2.now)
    (hno : ∀ made, q.2.outcome ≠ .renewed made) : q.2.outcome = .failed := by
  have hattempt := decided h hj
  simp only [hkept, due, hold, decide_true] at hattempt
  cases hq : q.2.outcome with
  | skipped =>
    rw [Tick.attempted, hq] at hattempt
    cases hattempt
  | failed => rfl
  | renewed made => exact absurd hq (hno made)

theorem renewed_within {a : ℕ} (h : Run (next (a * period)) kept ticks kept')
    (hgrid : OnGrid origin period ticks) (hf : AtMostFailures f ticks)
    (hi : ticks[i]? = some p) {time : ℕ} (hp : p.2.outcome = .renewed time)
    (hlen : i + (a + 1 + f) < ticks.length) :
    ∃ j q made, i < j ∧ j ≤ i + (a + 1 + f) ∧ ticks[j]? = some q ∧
      q.2.outcome = .renewed made := by
  by_contra hnone
  have hno : ∀ k r made, i < k → k ≤ i + (a + 1 + f) → ticks[k]? = some r →
      r.2.outcome ≠ .renewed made := by
    intro k r made hik hk hr hmade
    exact hnone ⟨k, r, made, hik, hk, hr, hmade⟩
  have hend := ((hgrid i p hi).made time hp).2
  let row := (ticks.drop (i + (a + 1))).take (f + 1)
  have hfailed : ∀ r ∈ row, r.2.outcome = .failed := by
    intro r hr
    obtain ⟨m, hm⟩ := List.mem_iff_getElem?.mp hr
    have hmf : m < f + 1 := by
      by_contra hge
      rw [List.getElem?_eq_none (by simp only [row, List.length_take]; omega)] at hm
      cases hm
    rw [List.getElem?_take_of_lt hmf, List.getElem?_drop] at hm
    have hkept : r.1 = some time := by
      rw [kept_until h (by omega) hi hm fun k r made hik hk => hno k r made hik (by omega), hp]
      rfl
    have hbegun := (hgrid _ r hm).begun
    refine failed_of_old h hm hkept ?_ fun made => hno _ r made (by omega) (by omega) hm
    -- the period after the limit has passed has begun
    have hmul : (i + 1) * period + a * period ≤ (i + (a + 1) + m) * period := by
      rw [← Nat.add_mul]
      exact Nat.mul_le_mul_right period (by omega)
    omega
  have hrow : row <:+: ticks.filter fun p => p.2.attempted := by
    have hall : row.filter (fun p => p.2.attempted) = row := by
      apply List.filter_eq_self.mpr
      intro r hr
      rw [Tick.attempted, hfailed r hr]
      rfl
    rw [← hall]
    apply List.IsInfix.filter
    exact (List.take_prefix ..).isInfix.trans (List.drop_suffix ..).isInfix
  have hshort := hf row hrow hfailed
  have hlength : row.length = f + 1 := by
    simp only [row, List.length_take, List.length_drop]
    omega
  omega

/-- What is made anew by then is made before the old one is two periods older than its limit and
the failures allow. -/
theorem replaced_within {a : ℕ} (h : Run (next (a * period)) kept ticks kept')
    (hgrid : OnGrid origin period ticks) (hf : AtMostFailures f ticks)
    (hi : ticks[i]? = some p) {time : ℕ} (hp : p.2.outcome = .renewed time)
    (hlen : i + (a + 1 + f) < ticks.length) :
    ∃ j q made, i < j ∧ ticks[j]? = some q ∧ q.2.outcome = .renewed made ∧
      made < time + (a + 2 + f) * period := by
  obtain ⟨j, q, made, hij, hj, hq, hmade⟩ := renewed_within h hgrid hf hi hp hlen
  refine ⟨j, q, made, hij, hq, hmade, ?_⟩
  have hbegun := (hgrid i p hi).begun
  have htime := ((hgrid i p hi).made time hp).1
  calc made < origin + (j + 1) * period := ((hgrid j q hq).made made hmade).2
    _ ≤ origin + (i + (a + 2 + f)) * period :=
      Nat.add_le_add_left (Nat.mul_le_mul_right period (by omega)) origin
    _ = origin + i * period + (a + 2 + f) * period := by rw [Nat.add_mul, Nat.add_assoc origin]
    _ ≤ time + (a + 2 + f) * period := by omega

end PeriodicRenewal
