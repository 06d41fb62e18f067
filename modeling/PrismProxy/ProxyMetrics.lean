import Mathlib.Algebra.GroupWithZero.Nat
import Mathlib.Algebra.BigOperators.Group.Finset.Basic
import Mathlib.Algebra.BigOperators.Group.List.Basic
import Mathlib.Data.List.Basic

/-! # The counters of the proxy

Six atomics, written one `fetch_add` at a time by `record` and loaded one at a time by
`render`. They wrap at `2 ^ 64`. -/
namespace ProxyMetrics

inductive Counter where
  | requestsTotal
  | requests2xx
  | requests4xx
  | requests5xx
  | requestsBlocked
  | responseTimeMsTotal
  deriving DecidableEq, Repr

abbrev Metrics := Counter → ℕ

def Metrics.zero : Metrics := fun _ => 0

abbrev Update := Counter × ℕ

def fetchAdd (m : Metrics) (u : Update) : Metrics :=
  fun c => if c = u.1 then (m c + u.2) % 2 ^ 64 else m c

/-- The class a status is counted in; the `_` arm counts nothing. -/
def statusCounter (status : ℕ) : Option Counter :=
  if 200 ≤ status ∧ status ≤ 299 then some .requests2xx
  else if 400 ≤ status ∧ status ≤ 499 then some .requests4xx
  else if 500 ≤ status ∧ status ≤ 599 then some .requests5xx
  else none

theorem statusCounter_iff (status : ℕ) :
    (statusCounter status = some .requests2xx ↔ 200 ≤ status ∧ status ≤ 299) ∧
    (statusCounter status = some .requests4xx ↔ 400 ≤ status ∧ status ≤ 499) ∧
    (statusCounter status = some .requests5xx ↔ 500 ≤ status ∧ status ≤ 599) := by
  unfold statusCounter
  split_ifs <;> simp <;> omega

/-- The updates of one `record`, in order. -/
def record (status elapsedMs : ℕ) (blocked : Bool) : List Update :=
  [(.requestsTotal, 1), (.responseTimeMsTotal, elapsedMs)] ++
    if blocked then [(.requestsBlocked, 1)]
    else (statusCounter status).toList.map fun c => (c, 1)

/-- The loads of `render`, in order. -/
def renderLoads : List Counter :=
  [.requestsTotal, .responseTimeMsTotal, .requests2xx, .requests4xx, .requests5xx,
    .requestsBlocked]

def family (name help kind value : String) : String :=
  "# HELP " ++ name ++ " " ++ help ++ "\n# TYPE " ++ name ++ " " ++ kind ++ "\n" ++ name ++ " " ++
    value ++ "\n"

/-- The text made of what was loaded. -/
def render (loaded : Counter → ℕ) : String :=
  let total := loaded .requestsTotal
  let meanMs := if 0 < total then loaded .responseTimeMsTotal / total else 0
  family "prismproxy_requests_total" "Total requests handled" "counter" (toString total) ++
  family "prismproxy_requests_2xx" "2xx responses" "counter" (toString (loaded .requests2xx)) ++
  family "prismproxy_requests_4xx" "4xx responses" "counter" (toString (loaded .requests4xx)) ++
  family "prismproxy_requests_5xx" "5xx responses" "counter" (toString (loaded .requests5xx)) ++
  family "prismproxy_requests_blocked" "Requests blocked by plugins" "counter"
    (toString (loaded .requestsBlocked)) ++
  family "prismproxy_response_time_ms_mean" "Mean response time in ms" "gauge" (toString meanMs)

/-- What these updates add to a counter. -/
def owed (c : Counter) (updates : List Update) : ℕ :=
  ((updates.filter fun u => u.1 == c).map Prod.snd).sum

@[simp] theorem owed_nil (c : Counter) : owed c [] = 0 := rfl

theorem owed_cons (c : Counter) (u : Update) (us : List Update) :
    owed c (u :: us) = (if c = u.1 then u.2 else 0) + owed c us := by
  by_cases h : u.1 = c
  · simp [owed, h]
  · simp [owed, h, Ne.symm h]

theorem fetchAdd_owed (m : Metrics) (u : Update) (us : List Update) (c : Counter) :
    (fetchAdd m u c + owed c us) % 2 ^ 64 = (m c + owed c (u :: us)) % 2 ^ 64 := by
  rw [owed_cons, fetchAdd]
  by_cases h : c = u.1
  · rw [if_pos h, if_pos h]
    omega
  · rw [if_neg h, if_neg h]
    omega

theorem fetchAdd_lt {m : Metrics} (h : ∀ c, m c < 2 ^ 64) (u : Update) (c : Counter) :
    fetchAdd m u c < 2 ^ 64 := by
  unfold fetchAdd
  split
  · exact Nat.mod_lt _ (by decide)
  · exact h c

/-- Whether one `record` adds one to a counter of requests. -/
def counts (status : ℕ) (blocked : Bool) : Counter → Bool
  | .requestsTotal => true
  | .requestsBlocked => blocked
  | .responseTimeMsTotal => false
  | c => !blocked && statusCounter status == some c

theorem owed_record {c : Counter} (hc : c ≠ .responseTimeMsTotal) (status ms : ℕ)
    (blocked : Bool) :
    owed c (record status ms blocked) = if counts status blocked c then 1 else 0 := by
  cases blocked with
  | true => cases c <;> simp [record, owed_cons, counts] at hc ⊢
  | false =>
    cases hs : statusCounter status with
    | none => cases c <;> simp [record, owed_cons, counts, hs] at hc ⊢
    | some k =>
      have hk : k ≠ .requestsTotal ∧ k ≠ .requestsBlocked := by
        unfold statusCounter at hs
        repeat' split at hs
        all_goals cases hs <;> simp
      cases c <;> cases k <;> simp [record, owed_cons, counts, hs] at hc hk ⊢

section Balance

variable {ι : Type*} {m : Metrics} {todo due : ι → List Update} {A : Finset ι}

/-- The counters, with what the members of `A` still have to write, are what all of them had to
write. -/
def Balanced (m : Metrics) (todo due : ι → List Update) (A : Finset ι) : Prop :=
  ∀ c, (m c + ∑ i ∈ A, owed c (todo i)) % 2 ^ 64 = (∑ i ∈ A, owed c (due i)) % 2 ^ 64

theorem balanced_zero (todo due : ι → List Update) : Balanced Metrics.zero todo due ∅ := by
  intro c
  rfl

theorem Balanced.settled (h : Balanced m todo due A) (hm : ∀ c, m c < 2 ^ 64)
    (htodo : ∀ i ∈ A, todo i = []) (c : Counter) : m c = (∑ i ∈ A, owed c (due i)) % 2 ^ 64 := by
  have hnone : ∑ i ∈ A, owed c (todo i) = 0 := by
    refine Finset.sum_eq_zero fun i hi => ?_
    rw [htodo i hi, owed_nil]
  have hc := h c
  rwa [hnone, Nat.add_zero, Nat.mod_eq_of_lt (hm c)] at hc

variable [DecidableEq ι]

theorem sum_update {i : ι} (hi : i ∉ A) (f : ι → List Update) (us : List Update) (c : Counter) :
    ∑ j ∈ A, owed c (Function.update f i us j) = ∑ j ∈ A, owed c (f j) := by
  refine Finset.sum_congr rfl fun j hj => ?_
  rw [Function.update_of_ne]
  rintro rfl
  exact hi hj

theorem Balanced.begin {i : ι} (h : Balanced m todo due A) (hi : i ∉ A) (us : List Update) :
    Balanced m (Function.update todo i us) (Function.update due i us) (insert i A) := by
  intro c
  have hc := h c
  rw [Finset.sum_insert hi, Finset.sum_insert hi, Function.update_self, Function.update_self,
    sum_update hi, sum_update hi]
  omega

theorem Balanced.write {i : ι} {u : Update} {us : List Update} (h : Balanced m todo due A)
    (hi : i ∈ A) (hu : todo i = u :: us) :
    Balanced (fetchAdd m u) (Function.update todo i us) due A := by
  intro c
  have hc := h c
  have hmove := fetchAdd_owed m u us c
  rw [← Finset.add_sum_erase A _ hi, hu] at hc
  rw [← Finset.add_sum_erase A _ hi, Function.update_self, sum_update (Finset.notMem_erase i A)]
  omega

end Balance

end ProxyMetrics
