import PrismProxy.CertificateCache
import PrismProxy.ExpositionText
import PrismProxy.ServedScrapes

/-! # What a scraper reads off the `/metrics` page

The page is a text of families; read back it gives the counters as they were when `render`
loaded them. -/
namespace MetricsPage

open TransitionRuns HttpMessage ProxyMetrics RequestServing ExpositionText
open MetricsAccounting
open ServedScrapes (noOverflow)
open CertificateCache (parseU64 parseU64_toString)

def text (n : ℕ) : List Char := (toString n).toList

def parse (s : List Char) : Option ℕ := parseU64 (String.ofList s)

def familyOf (name help kind : String) (value : ℕ) : Family ℕ :=
  ⟨name.toList, help.toList, kind.toList, value⟩

def meanMs (loaded : Counter → ℕ) : ℕ :=
  if 0 < loaded .requestsTotal then loaded .responseTimeMsTotal / loaded .requestsTotal else 0

def families (loaded : Counter → ℕ) : List (Family ℕ) :=
  [familyOf "prismproxy_requests_total" "Total requests handled" "counter"
      (loaded .requestsTotal),
    familyOf "prismproxy_requests_2xx" "2xx responses" "counter" (loaded .requests2xx),
    familyOf "prismproxy_requests_4xx" "4xx responses" "counter" (loaded .requests4xx),
    familyOf "prismproxy_requests_5xx" "5xx responses" "counter" (loaded .requests5xx),
    familyOf "prismproxy_requests_blocked" "Requests blocked by plugins" "counter"
      (loaded .requestsBlocked),
    familyOf "prismproxy_response_time_ms_mean" "Mean response time in ms" "gauge"
      (meanMs loaded)]

theorem joined_toList (helpMark kindMark blank newline name help kind value : String) :
    (helpMark ++ name ++ blank ++ help ++ kindMark ++ name ++ blank ++ kind ++ newline ++ name ++
      blank ++ value ++ newline).toList =
    helpMark.toList ++ (name.toList ++ (blank.toList ++ (help.toList ++ (kindMark.toList ++
      (name.toList ++ (blank.toList ++ (kind.toList ++ (newline.toList ++ (name.toList ++
      (blank.toList ++ (value.toList ++ newline.toList))))))))))) := by
  simp only [String.toList_append, List.append_assoc]

theorem family_toList (name help kind : String) (value : ℕ) :
    (family name help kind (toString value)).toList =
      writeLines ((familyOf name help kind value).lines text) := by
  refine (joined_toList "# HELP " "\n# TYPE " " " "\n" name help kind (toString value)).trans ?_
  simp only [writeLines, Family.lines, Family.comments, Family.sample, List.flatMap_cons,
    List.flatMap_nil, List.append_assoc, List.cons_append, List.nil_append, List.append_nil,
    familyOf, text]
  rfl

theorem render_toList (loaded : Counter → ℕ) :
    (render loaded).toList = write text (families loaded) := by
  have hnil : write text ([] : List (Family ℕ)) = [] := rfl
  simp only [render, families, write_cons, String.toList_append, family_toList, meanMs, hnil,
    List.append_assoc, List.append_nil]

theorem text_digits (n : ℕ) : ∀ c ∈ text n, c.isDigit = true := by
  intro c hc
  have hdigits : text n = Nat.toDigits 10 n := Nat.toList_repr
  rw [hdigits] at hc
  exact Nat.isDigit_of_mem_toDigits (by decide) (by decide) hc

theorem parse_text {n : ℕ} (h : n < 2 ^ 64) : parse (text n) = some n := by
  rw [parse, text, String.ofList_toList]
  exact parseU64_toString h

theorem families_plain (loaded : Counter → ℕ) : ∀ f ∈ families loaded, f.Plain text := by
  have hvalue : ∀ n, ∀ c ∈ text n, c ≠ ' ' ∧ c ≠ '\n' := by
    intro n c hc
    have hdigit := text_digits n c hc
    constructor
    · rintro rfl
      exact absurd hdigit (by decide)
    · rintro rfl
      exact absurd hdigit (by decide)
  have hplain : ∀ name help kind value, isSample name.toList = true →
      ' ' ∉ name.toList → '\n' ∉ name.toList → '\n' ∉ help.toList → '\n' ∉ kind.toList →
      (familyOf name help kind value).Plain text := by
    intro name help kind value hstart hblank hline hhelp hkind
    refine ⟨hstart, ?_, hhelp, hkind, hvalue value⟩
    intro c hc
    exact ⟨fun h => hblank (h ▸ hc), fun h => hline (h ▸ hc)⟩
  intro f hf
  simp only [families, List.mem_cons, List.not_mem_nil, or_false] at hf
  rcases hf with rfl | rfl | rfl | rfl | rfl | rfl <;>
    exact hplain _ _ _ _ (by decide) (by decide) (by decide) (by decide) (by decide)

/-- What a scraper reads off a page: a sample for each family, in order. -/
def samples (loaded : Counter → ℕ) : List (List Char × ℕ) :=
  (families loaded).map fun f => (f.name, f.value)

theorem read_render {loaded : Counter → ℕ} (h : ∀ c, loaded c < 2 ^ 64) :
    read parse (render loaded).toList = some (samples loaded) := by
  have hmean : meanMs loaded < 2 ^ 64 := by
    unfold meanMs
    split
    · exact Nat.lt_of_le_of_lt (Nat.div_le_self _ _) (h _)
    · decide
  rw [render_toList]
  apply read_write (families_plain loaded)
  intro f hf
  apply parse_text
  simp only [families, List.mem_cons, List.not_mem_nil, or_false] at hf
  rcases hf with rfl | rfl | rfl | rfl | rfl | rfl
  · exact h _
  · exact h _
  · exact h _
  · exact h _
  · exact h _
  · exact hmean

variable {arrivals : ℕ → Arrival} {hostParses : String → Bool} {k : ℕ}

/-- The counter a step loads for the page `k`, with what it finds in it. -/
def loadedAt (k : ℕ) (s : State) : Event → Option (Counter × ℕ)
  | .load i =>
    if i = k then (renderLoads[(s.loads k).length]?).map fun c => (c, s.metrics c) else none
  | _ => none

def loadsOf (k : ℕ) (tr : List (State × Event)) : List (Counter × ℕ) :=
  tr.filterMap fun p => loadedAt k p.1 p.2

def reading (k : ℕ) (tr : List (State × Event)) (c : Counter) : ℕ :=
  ((loadsOf k tr).lookup c).getD 0

def pageOf (loaded : Counter → ℕ) : Response :=
  textResponse 200 "text/plain; version=0.0.4" (render loaded)

theorem zip_concat {α β : Type*} {as : List α} {bs : List β} {a : α}
    (h : as[bs.length]? = some a) (b : β) : as.zip (bs ++ [b]) = as.zip bs ++ [(a, b)] := by
  induction bs generalizing as with
  | nil =>
    cases as with
    | nil => cases h
    | cons x as => simpa using h
  | cons y bs ih =>
    cases as with
    | nil => cases h
    | cons x as => simpa using ih (by simpa using h)

theorem load_next {s t : State} {i : ℕ} (h : next arrivals hostParses s (.load i) = some t) :
    ∃ c, s.pc i = .metrics ∧ renderLoads[(s.loads i).length]? = some c ∧
      t = { s with loads := Function.update s.loads i (s.loads i ++ [s.metrics c]) } := by
  simp only [next] at h
  split at h
  · rename_i c hp hc
    exact ⟨c, hp, hc, (Option.some.inj h).symm⟩
  · cases h

theorem page_next {s t : State} {i : ℕ} (h : next arrivals hostParses s (.page i) = some t) :
    renderLoads.length ≤ (s.loads i).length ∧ t.loads = s.loads ∧
      t.answer i = some (pageOf (loaded (s.loads i))) ∧ ∀ j ≠ i, t.answer j = s.answer j := by
  simp only [next] at h
  split at h
  · rename_i hp hc
    obtain ⟨_, hj, rfl⟩ := Option.map_eq_some_iff.mp h
    obtain ⟨m, hm, rfl⟩ := Option.map_eq_some_iff.mp hj
    simp only [RequestMediation.next, show (s.mediation i).pc = .metrics from hp] at hm
    obtain rfl := Option.some.inj hm
    refine ⟨List.getElem?_eq_none_iff.mp hc, rfl, ?_, fun j hji => answer_of_ne hji _⟩
    exact answer_eq.mpr (pc_setMediation _)
  · cases h

structure Paged (arrivals : ℕ → Arrival) (k : ℕ) (tr : List (State × Event)) (s : State) :
    Prop where
  ledger : ∃ A due, Ledger arrivals s A due
  loads : loadsOf k tr = renderLoads.zip (s.loads k)
  length : (s.loads k).length ≤ renderLoads.length
  bounded : ∀ n ∈ s.loads k, n < 2 ^ 64
  page : (arrivals k).req.uri.path = "/metrics" → ∀ resp, s.answer k = some resp →
    (s.loads k).length = renderLoads.length ∧ resp = pageOf (loaded (s.loads k))

theorem boot_paged (arrivals : ℕ → Arrival) (k : ℕ) (current : ProxyState.AppState)
    (flags : ℕ → Bool) (maxIdlePerHost : ℕ) :
    Paged arrivals k [] (boot current flags maxIdlePerHost) where
  ledger := ⟨∅, fun _ => [], ledger_boot current flags maxIdlePerHost⟩
  loads := rfl
  length := Nat.zero_le _
  bounded := by
    intro n hn
    cases hn
  page := by
    intro _ resp h
    cases h

theorem Paged.frame {tr : List (State × Event)} {s t : State} {e : Event}
    (h : Paged arrivals k tr s) (hl : ∃ A due, Ledger arrivals t A due)
    (he : loadedAt k s e = none) (hloads : t.loads k = s.loads k)
    (ha : (arrivals k).req.uri.path = "/metrics" → t.answer k = s.answer k) :
    Paged arrivals k (tr ++ [(s, e)]) t := by
  have hsame : loadsOf k (tr ++ [(s, e)]) = loadsOf k tr := by simp [loadsOf, he]
  refine ⟨hl, ?_, ?_, ?_, ?_⟩
  · rw [hsame, hloads]
    exact h.loads
  · rw [hloads]
    exact h.length
  · rw [hloads]
    exact h.bounded
  · intro hpath resp hresp
    rw [hloads]
    exact h.page hpath resp ((ha hpath).symm.trans hresp)

theorem paged_load {tr : List (State × Event)} {s : State} (h : Paged arrivals k tr s)
    {c : Counter} (hp : s.pc k = .metrics) (hc : renderLoads[(s.loads k).length]? = some c)
    {t : State} (hl : ∃ A due, Ledger arrivals t A due)
    (ht : t = { s with loads := Function.update s.loads k (s.loads k ++ [s.metrics c]) }) :
    Paged arrivals k (tr ++ [(s, .load k)]) t := by
  have hloads : t.loads k = s.loads k ++ [s.metrics c] := by
    rw [ht]
    exact Function.update_self ..
  have hpc : t.pc k = .metrics := by
    rw [ht]
    exact hp
  have hnone : t.answer k = none := unanswered hpc (by simp)
  obtain ⟨hlt, _⟩ := List.getElem?_eq_some_iff.mp hc
  refine ⟨hl, ?_, ?_, ?_, ?_⟩
  · have hone : loadsOf k (tr ++ [(s, .load k)]) = loadsOf k tr ++ [(c, s.metrics c)] := by
      simp [loadsOf, loadedAt, hc]
    rw [hone, hloads, h.loads, zip_concat hc]
  · rw [hloads, List.length_append, List.length_singleton]
    exact hlt
  · obtain ⟨A, due, hledger⟩ := h.ledger
    intro n hn
    rw [hloads] at hn
    rcases List.mem_append.mp hn with hold | hnew
    · exact h.bounded n hold
    · rw [List.mem_singleton.mp hnew]
      exact hledger.bounded c
  · intro _ resp hresp
    rw [hnone] at hresp
    cases hresp

theorem paged_step {tr : List (State × Event)} {s t : State} {e : Event}
    (h : Paged arrivals k tr s) (hn : next arrivals hostParses s e = some t) :
    Paged arrivals k (tr ++ [(s, e)]) t := by
  have hstep := step_of_next arrivals hostParses hn
  obtain ⟨A, due, hledger⟩ := h.ledger
  have hl := ledger_step hledger hstep
  -- a step of another request, or one that leads from no answer to no answer
  have quiet : ∀ {j : ℕ} {m : RequestMediation.State}, s.answer j = none →
      (s.setMediation j m).answer j = none → (s.setMediation j m).answer k = s.answer k := by
    intro j m hs ht
    by_cases hkj : k = j
    · rw [hkj, hs, ht]
    · exact answer_of_ne hkj m
  cases hstep with
  | store state => exact h.frame hl rfl rfl fun _ => rfl
  | setFlag j healthy => exact h.frame hl rfl rfl fun _ => rfl
  | step j m hm =>
    obtain ⟨hbefore, hafter⟩ := unanswered_step hm
    exact h.frame hl rfl rfl fun _ =>
      quiet (unanswered rfl hbefore) (unanswered (pc_setMediation m) hafter)
  | health j uptime m hp hm =>
    obtain ⟨hbefore, hafter⟩ := unanswered_health hp hm
    exact h.frame hl rfl rfl fun _ =>
      quiet (unanswered rfl hbefore) (unanswered (pc_setMediation m) hafter)
  | load j c hp =>
    obtain ⟨c', _, hc, ht⟩ := load_next hn
    by_cases hjk : j = k
    · subst hjk
      exact paged_load h hp hc hl ht
    · exact h.frame hl (by simp [loadedAt, hjk]) (Function.update_of_ne (Ne.symm hjk) ..)
        fun _ => rfl
  | page j text m hp hm =>
    obtain ⟨hlen, hloads, hanswer, hothers⟩ := page_next hn
    by_cases hjk : k = j
    · subst hjk
      have hsame : loadsOf k (tr ++ [(s, .page k)]) = loadsOf k tr := by simp [loadsOf, loadedAt]
      refine ⟨hl, ?_, ?_, ?_, ?_⟩
      · rw [hsame, hloads]
        exact h.loads
      · rw [hloads]
        exact h.length
      · rw [hloads]
        exact h.bounded
      · intro _ resp hresp
        rw [hanswer] at hresp
        rw [hloads]
        exact ⟨le_antisymm h.length hlen, (Option.some.inj hresp).symm⟩
    · exact h.frame hl rfl (congrFun hloads k) fun _ => hothers k hjk
  | forward e f he hf => exact h.frame hl rfl rfl fun _ => rfl
  | forwarded j result m hp hm =>
    obtain ⟨hbefore, hafter⟩ := unanswered_forwarded hm
    exact h.frame hl rfl rfl fun _ =>
      quiet (unanswered rfl hbefore) (unanswered (pc_setMediation m) hafter)
  | elapsed j ms result m hp hm =>
    refine h.frame hl rfl rfl ?_
    intro hpath
    have hkj : k ≠ j := by
      rintro rfl
      have hon := (hledger.decided k).onPath
      rw [OnPath, show (s.mediation k).pc = .routed result from hp] at hon
      exact hon hpath
    exact answer_of_ne hkj m
  | record j u us hr =>
    have hloads : (s.write j u us).loads = s.loads := by
      unfold State.write
      split <;> rfl
    refine h.frame hl rfl (congrFun hloads k) ?_
    intro _
    simp only [State.answer, State.pc, write_mediation]

theorem paged_run {current : ProxyState.AppState} {flags : ℕ → Bool} {maxIdlePerHost : ℕ}
    {tr : List (State × Event)} {u : State}
    (h : Run (next arrivals hostParses) (boot current flags maxIdlePerHost) tr u) :
    Paged arrivals k tr u :=
  h.traced_invariant (boot_paged arrivals k current flags maxIdlePerHost)
    fun _ _ _ _ hs hn => paged_step hs hn

theorem loaded_lt {loads : List ℕ} (h : ∀ n ∈ loads, n < 2 ^ 64) (c : Counter) :
    loaded loads c < 2 ^ 64 := by
  have hpairs : ∀ pairs : List (Counter × ℕ), (∀ q ∈ pairs, q.2 < 2 ^ 64) →
      (pairs.lookup c).getD 0 < 2 ^ 64 := by
    intro pairs hall
    induction pairs with
    | nil => simp
    | cons q pairs ih =>
      obtain ⟨hq, hrest⟩ := List.forall_mem_cons.mp hall
      rw [List.lookup_cons]
      split
      · exact hq
      · exact ih hrest
  refine hpairs _ ?_
  intro q hq
  exact h q.2 (List.of_mem_zip hq).2

theorem Paged.answered {tr : List (State × Event)} {u : State} (h : Paged arrivals k tr u)
    (hpath : (arrivals k).req.uri.path = "/metrics") {resp : Response}
    (ha : u.answer k = some resp) :
    (loadsOf k tr).map Prod.fst = renderLoads ∧ resp = pageOf (reading k tr) ∧
      ∀ c, reading k tr c < 2 ^ 64 := by
  obtain ⟨hlen, hresp⟩ := h.page hpath resp ha
  have hreading : reading k tr = loaded (u.loads k) := by
    funext c
    rw [reading, h.loads, loaded]
  refine ⟨?_, ?_, ?_⟩
  · rw [h.loads]
    exact List.map_fst_zip (le_of_eq hlen.symm)
  · rw [hresp, hreading]
  · rw [hreading]
    exact loaded_lt h.bounded

/-- What a scraper reads off an answered page is what `render` found in the counters, each of
them loaded once. -/
theorem page_scraped (current : ProxyState.AppState) (flags : ℕ → Bool) (maxIdlePerHost : ℕ)
    {tr : List (State × Event)} {u : State}
    (h : Run (next arrivals hostParses) (boot current flags maxIdlePerHost) tr u)
    (hpath : (arrivals k).req.uri.path = "/metrics") {resp : Response}
    (ha : u.answer k = some resp) :
    (loadsOf k tr).map Prod.fst = renderLoads ∧
    ∃ page, resp = textResponse 200 "text/plain; version=0.0.4" page ∧
      read parse page.toList = some (samples (reading k tr)) := by
  obtain ⟨hall, hresp, hlt⟩ := (paged_run h).answered hpath ha
  exact ⟨hall, render (reading k tr), hresp, read_render hlt⟩

def sampleArrivals (i : ℕ) : Arrival := sampleArrival (if i = 0 then "/none" else "/metrics")

def sampleNext : State → Event → Option State := next sampleArrivals fun _ => true

def samplePage (i : ℕ) : List Event := .step i :: List.replicate 6 (.load i) ++ [.page i]

def sampleRefused : List Event :=
  [.step 0, .step 0, .step 0, .elapsed 0 5, .record 0, .record 0, .record 0]

theorem page_scraped_torn : ∃ tr u resp, Run sampleNext sampleStart tr u ∧
    u.answer 1 = some resp ∧ (reading 1 tr .requestsTotal, reading 1 tr .requests4xx) = (1, 0) ∧
    (loadsOf 1 tr).map Prod.fst = renderLoads ∧
    ∃ page, resp = textResponse 200 "text/plain; version=0.0.4" page ∧
      read parse page.toList = some (samples (reading 1 tr)) := by
  have hreplay : ∃ u resp, exec sampleNext sampleStart
      (sampleRefused.dropLast ++ samplePage 1) = some u ∧ u.answer 1 = some resp :=
    ⟨_, _, rfl, rfl⟩
  obtain ⟨u, resp, hu, ha⟩ := hreplay
  exact ⟨_, u, resp, run_of_exec hu, ha, rfl,
    page_scraped _ _ _ (run_of_exec hu) rfl ha⟩

theorem metrics_step {s t : State} {e : Event} (hover : noOverflow s e = true)
    (h : Step arrivals hostParses s e t) (c : Counter) : s.metrics c ≤ t.metrics c := by
  cases h with
  | record j u us hr =>
    simp only [noOverflow, hr, decide_eq_true_eq] at hover
    rw [write_metrics, fetchAdd]
    split
    · rename_i hc
      rw [hc, Nat.mod_eq_of_lt hover]
      omega
    · exact le_rfl
  | _ => exact le_rfl

theorem metrics_mono {s u : State} {tr : List (State × Event)}
    (h : Run (next arrivals hostParses) s tr u)
    (hover : Obeys (fun s e => noOverflow s e = true) tr) (c : Counter) :
    s.metrics c ≤ u.metrics c :=
  h.invariant_of (I := fun t => s.metrics c ≤ t.metrics c)
    (fun _ _ _ ht hs hn => ht.trans (metrics_step hs (step_of_next arrivals hostParses hn) c))
    le_rfl hover

theorem loadsOf_between {s u : State} {tr : List (State × Event)}
    (h : Run (next arrivals hostParses) s tr u)
    (hover : Obeys (fun s e => noOverflow s e = true) tr) {q : Counter × ℕ}
    (hq : q ∈ loadsOf k tr) : s.metrics q.1 ≤ q.2 ∧ q.2 ≤ u.metrics q.1 := by
  obtain ⟨⟨v, e⟩, hmem, hload⟩ := List.mem_filterMap.mp hq
  have hvalue : q.2 = v.metrics q.1 := by
    cases e with
    | load i =>
      obtain ⟨_, hsome⟩ := Option.ite_none_right_eq_some.mp hload
      obtain ⟨c, _, rfl⟩ := Option.map_eq_some_iff.mp hsome
      rfl
    | _ => cases hload
  obtain ⟨pre, post, rfl⟩ := List.append_of_mem hmem
  obtain ⟨hpre, t, hn, hpost⟩ := h.cut
  obtain ⟨hover₁, hover₂⟩ := obeys_append.mp hover
  have hcut : Run (next arrivals hostParses) v ((v, e) :: post) u := .cons hn hpost
  rw [hvalue]
  exact ⟨metrics_mono hpre hover₁ q.1, metrics_mono hcut hover₂ q.1⟩

theorem reading_mem {tr : List (State × Event)}
    (h : (loadsOf k tr).map Prod.fst = renderLoads) (c : Counter) :
    (c, reading k tr c) ∈ loadsOf k tr := by
  have hfind : ∀ pairs : List (Counter × ℕ), c ∈ pairs.map Prod.fst →
      (c, (pairs.lookup c).getD 0) ∈ pairs := by
    intro pairs hc
    induction pairs with
    | nil => cases hc
    | cons q pairs ih =>
      rw [List.lookup_cons]
      by_cases hcq : c = q.1
      · subst hcq
        simp
      · have hne : (c == q.1) = false := by simpa using hcq
        rw [hne]
        refine List.mem_cons_of_mem _ (ih ?_)
        rw [List.map_cons, List.mem_cons] at hc
        exact hc.resolve_left hcq
  refine hfind _ ?_
  rw [h]
  cases c <;> decide

/-- A scraper that asks again after a page was answered never sees a counter fall, and between
the two pages lies what the counters were when the first was answered. -/
theorem scrapes_monotone (current : ProxyState.AppState) (flags : ℕ → Bool) (maxIdlePerHost : ℕ)
    {before after : List (State × Event)} {mid u : State}
    (h₁ : Run (next arrivals hostParses) (boot current flags maxIdlePerHost) before mid)
    (h₂ : Run (next arrivals hostParses) mid after u)
    (hover : Obeys (fun s e => noOverflow s e = true) (before ++ after)) {k' : ℕ}
    (hpath : (arrivals k).req.uri.path = "/metrics")
    (hpath' : (arrivals k').req.uri.path = "/metrics") {first second : Response}
    (ha : mid.answer k = some first) (hnew : mid.loads k' = [])
    (ha' : u.answer k' = some second) :
    first = pageOf (reading k before) ∧ second = pageOf (reading k' (before ++ after)) ∧
    read parse (render (reading k before)).toList = some (samples (reading k before)) ∧
    read parse (render (reading k' (before ++ after))).toList =
      some (samples (reading k' (before ++ after))) ∧
    ∀ c, reading k before c ≤ mid.metrics c ∧ mid.metrics c ≤ reading k' (before ++ after) c := by
  have hmid := paged_run (k := k) h₁
  have hnone : loadsOf k' before = [] := by
    rw [(paged_run (k := k') h₁).loads, hnew]
    rfl
  obtain ⟨hall, hfirst, hlt⟩ := hmid.answered hpath ha
  obtain ⟨hall', hsecond, hlt'⟩ := (paged_run (k := k') (h₁.trans h₂)).answered hpath' ha'
  obtain ⟨hover₁, hover₂⟩ := obeys_append.mp hover
  refine ⟨hfirst, hsecond, read_render hlt, read_render hlt', ?_⟩
  intro c
  constructor
  · exact (loadsOf_between h₁ hover₁ (reading_mem hall c)).2
  · have hmem := reading_mem hall' c
    have hafter : loadsOf k' (before ++ after) = loadsOf k' after := by
      have happend : loadsOf k' (before ++ after) = loadsOf k' before ++ loadsOf k' after :=
        List.filterMap_append
      rw [happend, hnone, List.nil_append]
    rw [hafter] at hmem
    exact (loadsOf_between h₂ hover₂ hmem).1

theorem scrapes_monotone_record : ∃ before mid after u first second,
    Run sampleNext sampleStart before mid ∧ Run sampleNext mid after u ∧
    mid.answer 1 = some first ∧ u.answer 2 = some second ∧ mid.metrics .requests4xx = 0 ∧
    u.metrics .requests4xx = 1 ∧
    first = pageOf (reading 1 before) ∧ second = pageOf (reading 2 (before ++ after)) ∧
    read parse (render (reading 1 before)).toList = some (samples (reading 1 before)) ∧
    read parse (render (reading 2 (before ++ after))).toList =
      some (samples (reading 2 (before ++ after))) ∧
    ∀ c, reading 1 before c ≤ mid.metrics c ∧ mid.metrics c ≤ reading 2 (before ++ after) c := by
  have hreplay : ∃ mid u first second,
      exec sampleNext sampleStart (sampleRefused.dropLast ++ samplePage 1) = some mid ∧
      exec sampleNext mid (.record 0 :: samplePage 2) = some u ∧
      mid.answer 1 = some first ∧ u.answer 2 = some second ∧ mid.loads 2 = [] ∧
      mid.metrics .requests4xx = 0 ∧ u.metrics .requests4xx = 1 ∧
      ((traceOf sampleNext sampleStart (sampleRefused.dropLast ++ samplePage 1) ++
        traceOf sampleNext mid (.record 0 :: samplePage 2)).all
          fun p => decide (noOverflow p.1 p.2 = true)) = true :=
    ⟨_, _, _, _, rfl, rfl, rfl, rfl, rfl, rfl, rfl, rfl⟩
  obtain ⟨mid, u, first, second, hmid, hu, ha, ha', hnew, hbefore, hafter, hall⟩ := hreplay
  exact ⟨_, mid, _, u, first, second, run_of_exec hmid, run_of_exec hu, ha, ha', hbefore, hafter,
    scrapes_monotone _ _ _ (run_of_exec hmid) (run_of_exec hu) (obeys_of_all hall) rfl rfl ha hnew
      ha'⟩

end MetricsPage
