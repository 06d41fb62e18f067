import Mathlib.Data.Finset.Card
import PrismProxy.RequestServing

/-! # Scrapes under way together with records

`render` loads its counters one after the other while any number of `record`s write theirs, one
atomic operation a step. What a page shows of a record is what had been written when the counter
was loaded, which `render` decides for each counter on its own. -/
namespace MetricsScrape

open TransitionRuns ProxyMetrics
open RequestServing (loaded)

variable {ι : Type}

/-- `todo` are the calls of `record` with what they still have to write, `loads` what `render`
has loaded. -/
structure State (ι : Type) where
  metrics : Metrics
  todo : ι → Option (List Update)
  loads : List ℕ

inductive Event (ι : Type) where
  | call (i : ι) (status elapsedMs : ℕ) (blocked : Bool)
  | write (i : ι)
  | load

def start : State ι := ⟨Metrics.zero, fun _ => none, []⟩

def next [DecidableEq ι] (s : State ι) : Event ι → Option (State ι)
  | .call i status elapsedMs blocked =>
    match s.todo i with
    | none =>
      some { s with todo := Function.update s.todo i (some (record status elapsedMs blocked)) }
    | some _ => none
  | .write i =>
    match s.todo i with
    | some (u :: us) =>
      some { s with
        metrics := fetchAdd s.metrics u
        todo := Function.update s.todo i (some us) }
    | _ => none
  | .load =>
    match renderLoads[s.loads.length]? with
    | some c => some { s with loads := s.loads ++ [s.metrics c] }
    | none => none

def noOverflow (s : State ι) : Event ι → Bool
  | .write i =>
    match s.todo i with
    | some (u :: _) => s.metrics u.1 + u.2 < 2 ^ 64
    | _ => true
  | _ => true

/-- The call that writes, in this step, a counter of `p` that `render` has not loaded yet. -/
def inTime (p : Counter → Bool) (s : State ι) : Event ι → Option ι
  | .write i =>
    match s.todo i with
    | some (u :: _) => if p u.1 ∧ s.loads.length ≤ renderLoads.idxOf u.1 then some i else none
    | _ => none
  | _ => none

/-- The calls whose write of a counter of `p` the page shows. -/
def shown [DecidableEq ι] (p : Counter → Bool) (tr : List (State ι × Event ι)) : Finset ι :=
  (tr.filterMap fun x => inTime p x.1 x.2).toFinset

def isTotal (c : Counter) : Bool := c == .requestsTotal

def isClass : Counter → Bool
  | .requests2xx | .requests4xx | .requests5xx | .requestsBlocked => true
  | .requestsTotal | .responseTimeMsTotal => false

/-- The calls the total of the page counts. -/
def counted [DecidableEq ι] (tr : List (State ι × Event ι)) : Finset ι := shown isTotal tr

def classified [DecidableEq ι] (tr : List (State ι × Event ι)) : Finset ι := shown isClass tr

def State.value (s : State ι) (c : Counter) : ℕ :=
  (s.loads[renderLoads.idxOf c]?).getD (s.metrics c)

def State.sum (s : State ι) (p : Counter → Bool) : ℕ :=
  ((renderLoads.filter p).map s.value).sum

theorem value_loaded {s : State ι} (h : s.loads.length = renderLoads.length) (c : Counter) :
    s.value c = loaded s.loads c := by
  unfold State.value loaded
  generalize s.loads = loads at h
  obtain ⟨total, ms, ok, client, server, blocked, rfl⟩ :
      ∃ total ms ok client server blocked, loads = [total, ms, ok, client, server, blocked] := by
    rcases loads with _ | ⟨a, _ | ⟨b, _ | ⟨c, _ | ⟨d, _ | ⟨e, _ | ⟨f, _ | _⟩⟩⟩⟩⟩⟩ <;>
      simp [renderLoads] at h
    exact ⟨a, b, c, d, e, f, rfl⟩
  cases c <;> rfl

theorem getElem?_idxOf (c : Counter) : renderLoads[renderLoads.idxOf c]? = some c := by
  cases c <;> rfl

theorem value_load {s : State ι} {c : Counter} (h : renderLoads[s.loads.length]? = some c) :
    State.value { s with loads := s.loads ++ [s.metrics c] } = s.value := by
  funext d
  unfold State.value
  by_cases hd : renderLoads.idxOf d < s.loads.length
  · rw [List.getElem?_append_left hd]
  · rw [List.getElem?_eq_none (l := s.loads) (by omega),
      List.getElem?_append_right (by omega)]
    by_cases hn : renderLoads.idxOf d = s.loads.length
    · have hdc : some d = some c := by rw [← getElem?_idxOf d, hn, h]
      rw [hn, Nat.sub_self, Option.some.inj hdc]
      rfl
    · rw [List.getElem?_eq_none (by rw [List.length_singleton]; omega)]

theorem value_write {s : State ι} {u : Update} (todo : ι → Option (List Update))
    (h : s.metrics u.1 + u.2 < 2 ^ 64) (c : Counter) :
    State.value { s with metrics := fetchAdd s.metrics u, todo := todo } c =
      s.value c + if c = u.1 ∧ s.loads.length ≤ renderLoads.idxOf u.1 then u.2 else 0 := by
  unfold State.value
  by_cases hc : c = u.1
  · subst hc
    by_cases hread : s.loads.length ≤ renderLoads.idxOf u.1
    · simp only [List.getElem?_eq_none hread, Option.getD_none, fetchAdd, if_true,
        Nat.mod_eq_of_lt h, hread, and_self]
    · have hlt : renderLoads.idxOf u.1 < s.loads.length := by omega
      simp only [List.getElem?_eq_getElem hlt, Option.getD_some, hread, and_false, if_false,
        Nat.add_zero]
  · simp only [fetchAdd, hc, if_false, false_and, Nat.add_zero]

theorem sum_bump {l : List Counter} (hl : l.Nodup) {f g : Counter → ℕ} {a : Counter} {n : ℕ}
    (hg : ∀ c, g c = f c + if c = a then n else 0) :
    (l.map g).sum = (l.map f).sum + if a ∈ l then n else 0 := by
  induction l with
  | nil => rfl
  | cons c l ih =>
    obtain ⟨hc, hl⟩ := List.nodup_cons.mp hl
    rw [List.map_cons, List.sum_cons, List.map_cons, List.sum_cons, ih hl, hg c]
    by_cases hca : c = a
    · subst hca
      rw [if_pos rfl, if_neg hc, if_pos List.mem_cons_self]
      omega
    · have hmem : a ∈ c :: l ↔ a ∈ l := by
        simp [List.mem_cons, Ne.symm hca]
      simp only [if_neg hca, hmem]
      omega

theorem sum_write {p : Counter → Bool} {s : State ι} {u : Update} (todo : ι → Option (List Update))
    (h : s.metrics u.1 + u.2 < 2 ^ 64) :
    State.sum { s with metrics := fetchAdd s.metrics u, todo := todo } p =
      s.sum p + if p u.1 = true ∧ s.loads.length ≤ renderLoads.idxOf u.1 then u.2 else 0 := by
  have hnodup : (renderLoads.filter p).Nodup := List.Nodup.filter p (by decide)
  have hmem : u.1 ∈ renderLoads.filter p ↔ p u.1 = true := by
    rw [List.mem_filter, and_iff_right]
    exact List.mem_of_getElem? (getElem?_idxOf u.1)
  have hvalue := value_write todo h
  simp only [ite_and] at hvalue
  unfold State.sum
  rw [sum_bump hnodup hvalue, ite_and]
  simp only [hmem]

variable [DecidableEq ι] {p : Counter → Bool} {s t : State ι} {e : Event ι}
  {tr : List (State ι × Event ι)}

def Once (p : Counter → Bool) (us : List Update) : Prop :=
  (us.filter fun u => p u.1).length ≤ 1 ∧ ∀ u ∈ us, p u.1 = true → u.2 = 1

def Spent (p : Counter → Bool) (us : List Update) : Prop := ∀ u ∈ us, p u.1 = false

theorem Once.tail {u : Update} {us : List Update} (h : Once p (u :: us)) : Once p us := by
  obtain ⟨hlen, hone⟩ := h
  refine ⟨?_, fun v hv => hone v (List.mem_cons_of_mem _ hv)⟩
  rw [List.filter_cons] at hlen
  split at hlen
  · rw [List.length_cons] at hlen
    omega
  · exact hlen

theorem Once.spent {u : Update} {us : List Update} (h : Once p (u :: us)) (hu : p u.1 = true) :
    Spent p us := by
  have hlen := h.1
  rw [List.filter_cons_of_pos (p := fun u : Update => p u.1) hu, List.length_cons] at hlen
  have hnil : us.filter (fun u => p u.1) = [] := List.length_eq_zero_iff.mp (by omega)
  intro v hv
  simpa using List.filter_eq_nil_iff.mp hnil v hv

theorem once_total (status ms : ℕ) (blocked : Bool) : Once isTotal (record status ms blocked) := by
  cases blocked with
  | true => exact ⟨by simp [record, isTotal], by simp [record, isTotal]⟩
  | false =>
    unfold record statusCounter
    split_ifs <;> simp [Once, isTotal]

theorem once_class (status ms : ℕ) (blocked : Bool) : Once isClass (record status ms blocked) := by
  cases blocked with
  | true => exact ⟨by simp [record, isClass], by simp [record, isClass]⟩
  | false =>
    unfold record statusCounter
    split_ifs <;> simp [Once, isClass]

theorem shown_snoc (p : Counter → Bool) (tr : List (State ι × Event ι)) (s : State ι)
    (e : Event ι) : shown p (tr ++ [(s, e)]) =
      match inTime p s e with
      | some i => insert i (shown p tr)
      | none => shown p tr := by
  unfold shown
  rw [List.filterMap_append]
  cases h : inTime p s e with
  | none => simp [h]
  | some i =>
    ext j
    simp [h]

/-- The counters of `p` add up to the calls shown in them, and a call that is shown is done with
them. -/
structure Tracked (p : Counter → Bool) (tr : List (State ι × Event ι)) (s : State ι) : Prop where
  once : ∀ i us, s.todo i = some us → Once p us
  spent : ∀ i ∈ shown p tr, ∃ us, s.todo i = some us ∧ Spent p us
  sum : s.sum p = (shown p tr).card

theorem tracked_start (p : Counter → Bool) : Tracked p [] (start : State ι) where
  once i us h := by cases h
  spent i h := by cases h
  sum := by
    have hzero : (start : State ι).value = fun _ => 0 := rfl
    rw [State.sum, hzero]
    simp [shown]

theorem once_update {todo : ι → Option (List Update)} {i : ι} {us : List Update}
    (h : ∀ j vs, todo j = some vs → Once p vs) (hus : Once p us) :
    ∀ j vs, Function.update todo i (some us) j = some vs → Once p vs := by
  intro j vs hj
  by_cases hji : j = i
  · subst hji
    rw [Function.update_self] at hj
    exact Option.some.inj hj ▸ hus
  · rw [Function.update_of_ne hji] at hj
    exact h j vs hj

theorem tracked_call (hp : ∀ status ms blocked, Once p (record status ms blocked))
    (h : Tracked p tr s) {i : ι} (hi : s.todo i = none) (status ms : ℕ) (blocked : Bool) :
    Tracked p (tr ++ [(s, .call i status ms blocked)])
      { s with todo := Function.update s.todo i (some (record status ms blocked)) } := by
  have hshown : shown p (tr ++ [(s, .call i status ms blocked)]) = shown p tr :=
    shown_snoc p tr s _
  refine ⟨once_update h.once (hp status ms blocked), ?_, ?_⟩
  · intro j hj
    rw [hshown] at hj
    obtain ⟨us, hus, hspent⟩ := h.spent j hj
    have hji : j ≠ i := by
      rintro rfl
      rw [hi] at hus
      cases hus
    exact ⟨us, (Function.update_of_ne hji ..).trans hus, hspent⟩
  · rw [hshown]
    exact h.sum

theorem tracked_load (h : Tracked p tr s) {c : Counter}
    (hc : renderLoads[s.loads.length]? = some c) :
    Tracked p (tr ++ [(s, .load)]) { s with loads := s.loads ++ [s.metrics c] } := by
  have hshown : shown p (tr ++ [(s, .load)]) = shown p tr := shown_snoc p tr s _
  refine ⟨h.once, ?_, ?_⟩
  · rw [hshown]
    exact h.spent
  · rw [hshown, State.sum, value_load hc]
    exact h.sum

theorem tracked_write (h : Tracked p tr s) {i : ι} {u : Update} {us : List Update}
    (hi : s.todo i = some (u :: us)) (hover : s.metrics u.1 + u.2 < 2 ^ 64) :
    Tracked p (tr ++ [(s, .write i)])
      { s with
        metrics := fetchAdd s.metrics u
        todo := Function.update s.todo i (some us) } := by
  have honce := h.once i _ hi
  have hspent : ∀ j ∈ shown p tr, ∃ vs, Function.update s.todo i (some us) j = some vs ∧
      Spent p vs := by
    intro j hj
    obtain ⟨vs, hvs, hs⟩ := h.spent j hj
    by_cases hji : j = i
    · subst hji
      rw [hi] at hvs
      obtain rfl := Option.some.inj hvs
      exact ⟨us, Function.update_self .., fun v hv => hs v (List.mem_cons_of_mem _ hv)⟩
    · exact ⟨vs, (Function.update_of_ne hji ..).trans hvs, hs⟩
  have hsnoc := shown_snoc p tr s (.write i)
  simp only [inTime, hi] at hsnoc
  by_cases hshows : p u.1 = true ∧ s.loads.length ≤ renderLoads.idxOf u.1
  · rw [if_pos hshows] at hsnoc
    have hfresh : i ∉ shown p tr := by
      intro hmem
      obtain ⟨vs, hvs, hs⟩ := h.spent i hmem
      rw [hi] at hvs
      obtain rfl := Option.some.inj hvs
      have hno := hs u List.mem_cons_self
      rw [hshows.1] at hno
      cases hno
    refine ⟨once_update h.once honce.tail, ?_, ?_⟩
    · intro j hj
      rw [hsnoc, Finset.mem_insert] at hj
      rcases hj with rfl | hj
      · exact ⟨us, Function.update_self .., honce.spent hshows.1⟩
      · exact hspent j hj
    · rw [hsnoc, Finset.card_insert_of_notMem hfresh, sum_write _ hover, if_pos hshows,
        honce.2 u List.mem_cons_self hshows.1, h.sum]
  · rw [if_neg hshows] at hsnoc
    refine ⟨once_update h.once honce.tail, ?_, ?_⟩
    · rw [hsnoc]
      exact hspent
    · rw [hsnoc, sum_write _ hover, if_neg hshows, h.sum, Nat.add_zero]

theorem tracked_step (hp : ∀ status ms blocked, Once p (record status ms blocked))
    (h : Tracked p tr s) (hover : noOverflow s e = true) (hn : next s e = some t) :
    Tracked p (tr ++ [(s, e)]) t := by
  cases e with
  | call i status ms blocked =>
    simp only [next] at hn
    split at hn
    · rename_i hi
      obtain rfl := Option.some.inj hn
      exact tracked_call hp h hi status ms blocked
    · cases hn
  | write i =>
    simp only [next] at hn
    split at hn
    · rename_i u us hi
      obtain rfl := Option.some.inj hn
      refine tracked_write h hi ?_
      simpa only [noOverflow, hi, decide_eq_true_eq] using hover
    · cases hn
  | load =>
    simp only [next] at hn
    split at hn
    · rename_i c hc
      obtain rfl := Option.some.inj hn
      exact tracked_load h hc
    · cases hn

theorem tracked_run (hp : ∀ status ms blocked, Once p (record status ms blocked))
    (h : Run next start tr s) (hover : Obeys (fun s e => noOverflow s e = true) tr) :
    Tracked p tr s :=
  h.traced (tracked_start p) (fun _ _ _ _ _ _ ht hc hn => tracked_step hp ht hc hn) hover

def classesOf (page : Counter → ℕ) : ℕ :=
  page .requests2xx + page .requests4xx + page .requests5xx + page .requestsBlocked

/-- The calls that start after the total is loaded and still reach their class before its load. -/
def overtaking (tr : List (State ι × Event ι)) : Finset ι := classified tr \ counted tr

/-- The calls of the total that the page shows in no class. -/
def unclassified (tr : List (State ι × Event ι)) : Finset ι := counted tr \ classified tr

theorem scrape_balance (h : Run next start tr s)
    (hover : Obeys (fun s e => noOverflow s e = true) tr)
    (hdone : s.loads.length = renderLoads.length) :
    classesOf (loaded s.loads) + (unclassified tr).card =
      loaded s.loads .requestsTotal + (overtaking tr).card := by
  have htotal : s.value .requestsTotal = (counted tr).card :=
    (Nat.add_zero _).symm.trans (tracked_run once_total h hover).sum
  have hclasses : s.sum isClass = (classified tr).card := (tracked_run once_class h hover).sum
  have hsum : s.sum isClass = s.value .requests2xx + (s.value .requests4xx +
      (s.value .requests5xx + (s.value .requestsBlocked + 0))) := rfl
  have hpage : classesOf (loaded s.loads) = (classified tr).card := by
    rw [← hclasses, hsum, classesOf]
    simp only [value_loaded hdone]
    omega
  rw [hpage, ← value_loaded hdone, htotal, overtaking, unclassified, Nat.add_comm,
    Nat.add_comm (counted tr).card, Finset.card_sdiff_add_card, Finset.card_sdiff_add_card,
    Finset.union_comm]

/-- A page shows more classified requests than requests by no more than the records that
overtook it, and only if these are more than the ones it counts and does not classify. -/
theorem scrape_torn_by_overtaking (h : Run next start tr s)
    (hover : Obeys (fun s e => noOverflow s e = true) tr)
    (hdone : s.loads.length = renderLoads.length) :
    classesOf (loaded s.loads) ≤ loaded s.loads .requestsTotal + (overtaking tr).card ∧
    (classesOf (loaded s.loads) ≤ loaded s.loads .requestsTotal ↔
      (overtaking tr).card ≤ (unclassified tr).card) := by
  have hbalance := scrape_balance h hover hdone
  omega

def overtaken : List (Event Unit) :=
  [.load, .call () 200 5 false, .write (), .write (), .write (), .load, .load, .load, .load, .load]

theorem scrape_torn_by_overtaking_once : ∃ tr u, Run next (start : State Unit) tr u ∧
    (loaded u.loads .requestsTotal, classesOf (loaded u.loads)) = (0, 1) ∧
    (classesOf (loaded u.loads) ≤ loaded u.loads .requestsTotal + (overtaking tr).card ∧
    (classesOf (loaded u.loads) ≤ loaded u.loads .requestsTotal ↔
      (overtaking tr).card ≤ (unclassified tr).card)) := by
  obtain ⟨u, hr, hv⟩ := run_of_view next start overtaken
    (fun u => (u.loads.length, loaded u.loads .requestsTotal, classesOf (loaded u.loads)))
    (6, 0, 1) rfl
  obtain ⟨hlen, hpage⟩ := Prod.mk.inj hv
  exact ⟨_, u, hr, hpage, scrape_torn_by_overtaking hr (obeys_of_all rfl) hlen⟩

/-- A page can show a classified request and no request at all. -/
theorem scrape_torn : ¬ ∀ (ι : Type) [DecidableEq ι] (tr : List (State ι × Event ι))
    (u : State ι), Run next start tr u → Obeys (fun s e => noOverflow s e = true) tr →
    u.loads.length = renderLoads.length →
    classesOf (loaded u.loads) ≤ loaded u.loads .requestsTotal := by
  intro hall
  obtain ⟨u, hr, hv⟩ := run_of_view next start overtaken
    (fun u => (u.loads.length, loaded u.loads .requestsTotal, classesOf (loaded u.loads)))
    (6, 0, 1) rfl
  obtain ⟨hlen, hpage⟩ := Prod.mk.inj hv
  obtain ⟨htotal, hclasses⟩ := Prod.mk.inj hpage
  have hle := hall Unit _ u hr (obeys_of_all rfl) hlen
  rw [htotal, hclasses] at hle
  omega

end MetricsScrape
