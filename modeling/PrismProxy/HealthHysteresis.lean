import PrismProxy.HealthLoops
import PrismProxy.HistoryRuns

/-! # The hysteresis of the health flags

The flag of a route is the outcome of two counters that reset each other; seen from the
history of its pings it is a latch. -/
namespace HealthHysteresis

open HistoryRuns ProxyConfig ProxyState ProxyHealthCheck

/-- Some outcome ends a run of `failThreshold` failures, and no later one a run of
`recoverThreshold` successes. -/
def Unhealthy (failThreshold recoverThreshold : ℕ) : List Bool → Prop :=
  Latched (EndsRun false failThreshold) (EndsRun true recoverThreshold)

/-- The counters are the runs the history ends with, up to wrapping; as long as the flag could
still change, the run it waits for has not reached its threshold. -/
structure Counts (failThreshold recoverThreshold : ℕ) (pings : List Bool) (healthy : Bool)
    (c : Counters) : Prop where
  failures : ∃ n, RunLength false n pings ∧ c.consecutiveFailures = n % 2 ^ 32 ∧
    (healthy = true → n < failThreshold)
  successes : ∃ n, RunLength true n pings ∧ c.consecutiveSuccesses = n % 2 ^ 32 ∧
    (healthy = false → n < recoverThreshold)
  flag : healthy = false ↔ Unhealthy failThreshold recoverThreshold pings

section Loop

variable {failThreshold recoverThreshold : ℕ}

theorem bump_mod (n : ℕ) : bump (n % 2 ^ 32) = (n + 1) % 2 ^ 32 := Nat.mod_add_mod n (2 ^ 32) 1

theorem unhealthy_success {pings : List Bool} {n : ℕ} (hn : RunLength true n pings)
    (hf : 0 < failThreshold) :
    Unhealthy failThreshold recoverThreshold (pings ++ [true]) ↔
      Unhealthy failThreshold recoverThreshold pings ∧ n + 1 < recoverThreshold := by
  have hset : ¬ EndsRun false failThreshold (pings ++ [true]) := by
    rw [runLength_other (by simp) pings]
    omega
  rw [Unhealthy, latched_snoc, hn.same, Nat.not_le]
  simp only [hset, false_or]

theorem unhealthy_failure {pings : List Bool} {n : ℕ} (hn : RunLength false n pings)
    (hr : 0 < recoverThreshold) :
    Unhealthy failThreshold recoverThreshold (pings ++ [false]) ↔
      failThreshold ≤ n + 1 ∨ Unhealthy failThreshold recoverThreshold pings := by
  have hreset : ¬ EndsRun true recoverThreshold (pings ++ [false]) := by
    rw [runLength_other (by simp) pings]
    omega
  rw [Unhealthy, latched_snoc, hn.same]
  simp only [hreset, not_false_eq_true, and_true]

theorem counts_nil (hf : 0 < failThreshold) (hr : 0 < recoverThreshold) :
    Counts failThreshold recoverThreshold [] true ⟨0, 0⟩ where
  failures := ⟨0, runLength_nil false, rfl, fun _ => hf⟩
  successes := ⟨0, runLength_nil true, rfl, fun _ => hr⟩
  flag := by
    rw [Unhealthy, latched_nil, runLength_nil]
    simp only [Bool.true_eq_false, false_iff]
    omega

theorem Counts.success {pings : List Bool} {healthy : Bool} {c : Counters}
    (h : Counts failThreshold recoverThreshold pings healthy c) (hf : 0 < failThreshold)
    (hr : 0 < recoverThreshold) (hbound : recoverThreshold < 2 ^ 32) :
    Counts failThreshold recoverThreshold (pings ++ [true])
      (afterPing failThreshold recoverThreshold true (healthy, c)).1
      (afterPing failThreshold recoverThreshold true (healthy, c)).2 := by
  obtain ⟨n, hn, hc, hlt⟩ := h.successes
  have hflag : Unhealthy failThreshold recoverThreshold (pings ++ [true]) ↔ _ :=
    unhealthy_success hn hf
  have hother := runLength_other (a := false) (b := true) (by simp) pings
  simp only [afterPing, hc, bump_mod, if_true]
  cases healthy with
  | true =>
    simp only [Bool.not_true, Bool.false_and, Bool.false_eq_true, if_false]
    refine ⟨⟨0, hother, rfl, fun _ => hf⟩, ⟨n + 1, hn.same, rfl, by simp⟩, ?_⟩
    rw [hflag, ← h.flag]
    simp
  | false =>
    have hwrap : (n + 1) % 2 ^ 32 = n + 1 := Nat.mod_eq_of_lt (by have := hlt rfl; omega)
    have hbefore := h.flag.mp rfl
    by_cases hrec : recoverThreshold ≤ n + 1
    · simp only [hwrap, hrec, decide_true, Bool.not_false, Bool.and_self, if_true]
      refine ⟨⟨0, hother, rfl, fun _ => hf⟩, ⟨n + 1, hn.same, hwrap.symm, by simp⟩, ?_⟩
      rw [hflag]
      simp only [Bool.true_eq_false, false_iff]
      omega
    · simp only [hwrap, hrec, decide_false, Bool.and_false, Bool.false_eq_true, if_false]
      refine ⟨⟨0, hother, rfl, by simp⟩, ⟨n + 1, hn.same, hwrap.symm, fun _ => by omega⟩, ?_⟩
      rw [hflag]
      exact iff_of_true rfl ⟨hbefore, by omega⟩

theorem Counts.failure {pings : List Bool} {healthy : Bool} {c : Counters}
    (h : Counts failThreshold recoverThreshold pings healthy c) (hr : 0 < recoverThreshold)
    (hbound : failThreshold < 2 ^ 32) :
    Counts failThreshold recoverThreshold (pings ++ [false])
      (afterPing failThreshold recoverThreshold false (healthy, c)).1
      (afterPing failThreshold recoverThreshold false (healthy, c)).2 := by
  obtain ⟨n, hn, hc, hlt⟩ := h.failures
  have hflag : Unhealthy failThreshold recoverThreshold (pings ++ [false]) ↔ _ :=
    unhealthy_failure hn hr
  have hother := runLength_other (a := true) (b := false) (by simp) pings
  simp only [afterPing, hc, bump_mod, Bool.false_eq_true, if_false]
  cases healthy with
  | false =>
    simp only [Bool.false_and, Bool.false_eq_true, if_false]
    refine ⟨⟨n + 1, hn.same, rfl, by simp⟩, ⟨0, hother, rfl, fun _ => hr⟩, ?_⟩
    rw [hflag, ← h.flag]
    simp
  | true =>
    have hwrap : (n + 1) % 2 ^ 32 = n + 1 := Nat.mod_eq_of_lt (by have := hlt rfl; omega)
    have hbefore : ¬ Unhealthy failThreshold recoverThreshold pings := by simp [← h.flag]
    by_cases hfail : failThreshold ≤ n + 1
    · simp only [hwrap, hfail, decide_true, Bool.and_self, if_true]
      refine ⟨⟨n + 1, hn.same, hwrap.symm, by simp⟩, ⟨0, hother, rfl, fun _ => hr⟩, ?_⟩
      rw [hflag]
      exact iff_of_true rfl (Or.inl hfail)
    · simp only [hwrap, hfail, decide_false, Bool.and_false, Bool.false_eq_true, if_false]
      refine ⟨⟨n + 1, hn.same, hwrap.symm, fun _ => by omega⟩, ⟨0, hother, rfl, by simp⟩, ?_⟩
      rw [hflag]
      simp [hfail, hbefore]

theorem counts_afterPings (hf : 0 < failThreshold) (hf' : failThreshold < 2 ^ 32)
    (hr : 0 < recoverThreshold) (hr' : recoverThreshold < 2 ^ 32) (pings : List Bool) :
    Counts failThreshold recoverThreshold pings
      (afterPings failThreshold recoverThreshold pings).1
      (afterPings failThreshold recoverThreshold pings).2 := by
  induction pings using List.reverseRecOn with
  | nil => exact counts_nil hf hr
  | append_singleton pings ok ih =>
    rw [afterPings_snoc]
    cases ok with
    | true => exact ih.success hf hr hr'
    | false => exact ih.failure hr hf'

end Loop

structure Watch where
  flags : ℕ → Bool
  counters : ℕ → Counters

def Watch.boot : Watch := ⟨fun _ => true, fun _ => ⟨0, 0⟩⟩

def Watch.ping (failThreshold recoverThreshold : ℕ) (routes : List RouteState) (w : Watch)
    (e : ℕ × Bool) : Watch :=
  match routes[e.1]? with
  | none => w
  | some rs =>
    let turn := afterPing failThreshold recoverThreshold e.2 (w.flags rs.healthy, w.counters e.1)
    ⟨Function.update w.flags rs.healthy turn.1, Function.update w.counters e.1 turn.2⟩

/-- The loops after any interleaving of their pings. -/
def watchAll (failThreshold recoverThreshold : ℕ) (routes : List RouteState)
    (pings : List (ℕ × Bool)) : Watch :=
  pings.foldl (Watch.ping failThreshold recoverThreshold routes) .boot

def outcomesOf (i : ℕ) (pings : List (ℕ × Bool)) : List Bool :=
  (pings.filter fun e => e.1 == i).map Prod.snd

theorem outcomesOf_snoc (i : ℕ) (pings : List (ℕ × Bool)) (e : ℕ × Bool) :
    outcomesOf i (pings ++ [e]) =
      if e.1 = i then outcomesOf i pings ++ [e.2] else outcomesOf i pings := by
  by_cases h : e.1 = i <;> simp [outcomesOf, List.filter_append, h]

theorem flags_distinct {R : Rustls} {view : BuildView} {flag : ℕ} {config : Config}
    {state : AppState} (h : buildState R view flag config = .ok state) {i j : ℕ}
    {rs rs' : RouteState} (hi : state.routes[i]? = some rs) (hj : state.routes[j]? = some rs')
    (heq : rs.healthy = rs'.healthy) : i = j := by
  have hflags := (buildRoutes_ok (buildState_ok h).2.1).2
  have hnodup : (state.routes.map RouteState.healthy).Nodup := by
    rw [hflags]
    exact List.nodup_range'
  have hgi : (state.routes.map RouteState.healthy)[i]? = some rs.healthy := by simp [hi]
  have hgj : (state.routes.map RouteState.healthy)[j]? = some rs.healthy := by simp [hj, heq]
  obtain ⟨hlt, _⟩ := List.getElem?_eq_some_iff.mp hgi
  exact (List.getElem?_inj hlt hnodup).mp (hgi.trans hgj.symm)

theorem watchAll_own (failThreshold recoverThreshold : ℕ) {R : Rustls} {view : BuildView}
    {flag : ℕ} {config : Config} {state : AppState}
    (h : buildState R view flag config = .ok state) (pings : List (ℕ × Bool)) {i : ℕ}
    {rs : RouteState} (hi : state.routes[i]? = some rs) :
    let w := watchAll failThreshold recoverThreshold state.routes pings
    (w.flags rs.healthy, w.counters i) =
      afterPings failThreshold recoverThreshold (outcomesOf i pings) := by
  induction pings using List.reverseRecOn with
  | nil => rfl
  | append_singleton pings e ih =>
    simp only [watchAll, List.foldl_append, List.foldl_cons, List.foldl_nil] at ih ⊢
    rw [outcomesOf_snoc]
    by_cases he : e.1 = i
    · subst he
      simp only [if_true, afterPings_snoc, ← ih, Watch.ping, hi, Function.update_self]
    · simp only [if_neg he, ← ih, Watch.ping]
      cases hj : state.routes[e.1]? with
      | none => rfl
      | some rs' =>
        have hne : rs.healthy ≠ rs'.healthy := fun heq => he (flags_distinct h hi hj heq).symm
        simp only [Function.update_of_ne hne, Function.update_of_ne (Ne.symm he)]

/-- The flag of one loop is a latch on the history of its pings; and however many loops
interleave, the flag of a route is the one its own outcomes make. -/
structure Hysteresis (failThreshold recoverThreshold : ℕ) : Prop where
  latch : ∀ pings, (afterPings failThreshold recoverThreshold pings).1 = false ↔
    Unhealthy failThreshold recoverThreshold pings
  own : ∀ {R view flag config state}, buildState R view flag config = .ok state →
    ∀ (pings : List (ℕ × Bool)) (i : ℕ) (rs : RouteState), state.routes[i]? = some rs →
      (watchAll failThreshold recoverThreshold state.routes pings).flags rs.healthy =
        (afterPings failThreshold recoverThreshold (outcomesOf i pings)).1

/-- For all `u32` thresholds from 1 on. -/
theorem hysteresis {failThreshold recoverThreshold : ℕ} (hf : 0 < failThreshold)
    (hf' : failThreshold < 2 ^ 32) (hr : 0 < recoverThreshold) (hr' : recoverThreshold < 2 ^ 32) :
    Hysteresis failThreshold recoverThreshold where
  latch pings := (counts_afterPings hf hf' hr hr' pings).flag
  own h pings _ _ hi := congrArg Prod.fst (watchAll_own _ _ h pings hi)

theorem hysteresis_spawned : Hysteresis failThreshold recoverThreshold :=
  hysteresis (by decide) (by decide) (by decide) (by decide)

theorem tracks_latch {l : HealthLoop} {flag : Bool} (h : l.Tracks flag) :
    flag = false ↔ Unhealthy failThreshold recoverThreshold l.pings := by
  obtain rfl : flag = (afterPings failThreshold recoverThreshold l.pings).1 := congrArg Prod.fst h
  exact hysteresis_spawned.latch l.pings

example : (afterPings 3 2 [true, false, false, false, true, false, true]).1 = false := by decide

end HealthHysteresis
