import PrismProxy.MetricsAccounting
import PrismProxy.MetricsScrape

/-! # The pages `handle` serves

A `/metrics` request among all others: its loads and the records of the other requests are a
scrape under way together with records. -/
namespace ServedScrapes

open TransitionRuns ProxyMetrics RequestServing MetricsAccounting

variable {arrivals : ℕ → Arrival} {hostParses : String → Bool} {k : ℕ}

def todo (arrivals : ℕ → Arrival) (s : State) (i : ℕ) : Option (List Update) :=
  if (s.answer i).isSome = true ∧ (arrivals i).req.uri.path ≠ "/metrics" then some (s.recording i)
  else none

def view (arrivals : ℕ → Arrival) (k : ℕ) (s : State) : MetricsScrape.State ℕ :=
  ⟨s.metrics, todo arrivals s, s.loads k⟩

def label (k : ℕ) (s : State) : Event → Option (MetricsScrape.Event ℕ)
  | .elapsed i ms =>
    match s.pc i with
    | .routed (.ok (resp, blocked)) => some (.call i resp.status ms blocked)
    | .routed (.error e) => some (.call i (RequestMediation.errorResponse e).status ms false)
    | _ => none
  | .record i => some (.write i)
  | .load i => if i = k then some .load else none
  | _ => none

theorem todo_congr {s t : State} (ha : ∀ i, t.answer i = s.answer i)
    (hr : t.recording = s.recording) : todo arrivals t = todo arrivals s := by
  funext i
  rw [todo, todo, ha, hr]

theorem view_unanswered {s : State} {j : ℕ} {m : RequestMediation.State}
    (hs : s.answer j = none) (ht : (s.setMediation j m).answer j = none) :
    view arrivals k (s.setMediation j m) = view arrivals k s := by
  have htodo : todo arrivals (s.setMediation j m) = todo arrivals s := by
    refine todo_congr ?_ rfl
    intro i
    by_cases hij : i = j
    · rw [hij, hs, ht]
    · exact answer_of_ne hij m
  rw [view, htodo]
  rfl

theorem view_record {s : State} {A : Finset ℕ} {due : ℕ → List Update}
    (h : Ledger arrivals s A due) {i : ℕ} {u : Update} {us : List Update}
    (hi : s.recording i = u :: us) :
    MetricsScrape.next (view arrivals k s) (.write i) =
      some (view arrivals k (s.write i u us)) := by
  have hA : i ∈ A := by
    by_contra hA
    rw [h.silent i hA] at hi
    cases hi
  obtain ⟨resp, _, ha, _⟩ := h.dues i hA
  have hcalled : (s.answer i).isSome = true ∧ (arrivals i).req.uri.path ≠ "/metrics" :=
    ⟨by rw [ha]; rfl, h.off i hA⟩
  have htodo : todo arrivals s i = some (u :: us) := by rw [todo, if_pos hcalled, hi]
  have hafter : todo arrivals (s.write i u us) =
      Function.update (todo arrivals s) i (some us) := by
    funext j
    have hanswer : (s.write i u us).answer j = s.answer j := by
      simp only [State.answer, State.pc, write_mediation]
    rw [todo, hanswer, write_recording]
    by_cases hji : j = i
    · subst hji
      rw [if_pos hcalled, Function.update_self, Function.update_self]
    · rw [Function.update_of_ne hji, Function.update_of_ne hji, todo]
  have hloads : (s.write i u us).loads = s.loads := by
    unfold State.write
    split <;> rfl
  simp only [MetricsScrape.next, view, htodo, hafter, hloads, write_metrics]

theorem view_elapsed {s : State} {A : Finset ℕ} {due : ℕ → List Update}
    (h : Ledger arrivals s A due) {i ms : ℕ} {result : Except ProxyConfig.ProxyError _}
    {m : RequestMediation.State} (hp : s.pc i = .routed result)
    (hm : RequestMediation.next (arrivals i).req (s.mediation i) (.elapsed ms) = some m)
    {status : ℕ} {blocked : Bool} (hrec : recordOf result ms = record status ms blocked) :
    MetricsScrape.next (view arrivals k s) (.call i status ms blocked) =
      some (view arrivals k ((s.setMediation i m).setRecording i (recordOf result ms))) := by
  obtain ⟨resp, hresp, _⟩ := elapsed_records hp (h.decided i).flagged hm
  have hpath : (arrivals i).req.uri.path ≠ "/metrics" := by
    have hon := (h.decided i).onPath
    rw [OnPath, show (s.mediation i).pc = .routed result from hp] at hon
    exact hon
  have hnone : s.answer i = none := unanswered hp (by simp)
  have htodo : todo arrivals s i = none := by simp [todo, hnone]
  have hafter : todo arrivals ((s.setMediation i m).setRecording i (recordOf result ms)) =
      Function.update (todo arrivals s) i (some (record status ms blocked)) := by
    funext j
    by_cases hji : j = i
    · subst hji
      have hanswer : ((s.setMediation j m).setRecording j (recordOf result ms)).answer j =
          some resp := by
        rw [answer_eq]
        exact (pc_setMediation m).trans hresp
      rw [todo, hanswer, if_pos ⟨rfl, hpath⟩, Function.update_self, ← hrec]
      exact congrArg some (Function.update_self ..)
    · have hanswer : ((s.setMediation i m).setRecording i (recordOf result ms)).answer j =
          s.answer j := answer_of_ne hji m
      rw [todo, hanswer, Function.update_of_ne hji, todo]
      exact if_congr Iff.rfl (congrArg some (Function.update_of_ne hji ..)) rfl
  simp only [MetricsScrape.next, view, htodo, hafter]
  rfl

theorem view_page {s : State} {A : Finset ℕ} {due : ℕ → List Update}
    (h : Ledger arrivals s A due) {i : ℕ} (hp : s.pc i = .metrics) (m : RequestMediation.State) :
    view arrivals k ((s.setMediation i m).complete i) = view arrivals k s := by
  have hpath : (arrivals i).req.uri.path = "/metrics" := by
    have hon := (h.decided i).onPath
    rw [OnPath, show (s.mediation i).pc = .metrics from hp] at hon
    exact hon
  have htodo : todo arrivals ((s.setMediation i m).complete i) = todo arrivals s := by
    funext j
    by_cases hji : j = i
    · subst hji
      simp [todo, hpath]
    · rw [todo, todo, show ((s.setMediation i m).complete i).answer j = s.answer j from
        answer_of_ne hji m]
      rfl
  rw [view, htodo]
  rfl

theorem view_idle {s t : State} {e : Event} {A : Finset ℕ} {due : ℕ → List Update}
    (h : Ledger arrivals s A due) (hn : next arrivals hostParses s e = some t)
    (hl : label k s e = none) : view arrivals k t = view arrivals k s := by
  cases step_of_next arrivals hostParses hn with
  | store state => rfl
  | setFlag j healthy => rfl
  | step j m hm =>
    obtain ⟨hbefore, hafter⟩ := unanswered_step hm
    exact view_unanswered (unanswered rfl hbefore) (unanswered (pc_setMediation m) hafter)
  | health j uptime m hp hm =>
    obtain ⟨hbefore, hafter⟩ := unanswered_health hp hm
    exact view_unanswered (unanswered rfl hbefore) (unanswered (pc_setMediation m) hafter)
  | load j c hp =>
    have hjk : k ≠ j := by
      rintro rfl
      simp [label] at hl
    simp only [view, Function.update_of_ne hjk]
    rfl
  | page j text m hp hm => exact view_page h hp m
  | forward e f he hf => rfl
  | forwarded j result m hp hm =>
    obtain ⟨hbefore, hafter⟩ := unanswered_forwarded hm
    exact view_unanswered (unanswered rfl hbefore) (unanswered (pc_setMediation m) hafter)
  | elapsed j ms result m hp hm =>
    rcases result with e | ⟨resp, blocked⟩ <;> simp [label, hp] at hl
  | record j u us hr => cases hl

theorem view_move {s t : State} {e : Event} {a : MetricsScrape.Event ℕ} {A : Finset ℕ}
    {due : ℕ → List Update} (h : Ledger arrivals s A due)
    (hn : next arrivals hostParses s e = some t) (hl : label k s e = some a) :
    MetricsScrape.next (view arrivals k s) a = some (view arrivals k t) := by
  cases e with
  | elapsed i ms =>
    cases step_of_next arrivals hostParses hn with
    | elapsed _ _ result m hp hm =>
      rcases result with e | ⟨resp, blocked⟩
      · simp only [label, hp] at hl
        obtain rfl := Option.some.inj hl
        exact view_elapsed h hp hm rfl
      · simp only [label, hp] at hl
        obtain rfl := Option.some.inj hl
        exact view_elapsed h hp hm rfl
  | record i =>
    cases step_of_next arrivals hostParses hn with
    | record _ u us hr =>
      obtain rfl := Option.some.inj hl
      exact view_record h hr
  | load i =>
    obtain ⟨rfl, ha⟩ := Option.ite_none_right_eq_some.mp hl
    obtain rfl := Option.some.inj ha
    simp only [next] at hn
    split at hn
    · rename_i c hp hc
      obtain rfl := Option.some.inj hn
      simp only [MetricsScrape.next, view, hc, Function.update_self]
      rfl
    · cases hn
  | _ => cases hl

def scrape (arrivals : ℕ → Arrival) (hostParses : String → Bool) (k : ℕ) :
    Simulation (next arrivals hostParses)
      (MetricsScrape.next : MetricsScrape.State ℕ → MetricsScrape.Event ℕ → _) where
  ok _ _ := True
  inv s := ∃ A due, Ledger arrivals s A due
  view := view arrivals k
  label := label k
  keeps := by
    rintro s e t ⟨A, due, h⟩ _ hn
    exact ledger_step h (step_of_next arrivals hostParses hn)
  idle := by
    rintro s e t ⟨A, due, h⟩ _ hn hl
    exact view_idle h hn hl
  move := by
    rintro s e t a ⟨A, due, h⟩ _ hn hl
    exact view_move h hn hl

def noOverflow (s : State) : Event → Bool
  | .record i =>
    match s.recording i with
    | u :: _ => s.metrics u.1 + u.2 < 2 ^ 64
    | [] => true
  | _ => true

theorem noOverflow_view {s : State} {e : Event} {a : MetricsScrape.Event ℕ}
    (h : noOverflow s e = true) (hl : label k s e = some a) :
    MetricsScrape.noOverflow (view arrivals k s) a = true := by
  cases e with
  | record i =>
    obtain rfl := Option.some.inj hl
    simp only [MetricsScrape.noOverflow, view, todo]
    simp only [noOverflow] at h
    by_cases hcalled : (s.answer i).isSome = true ∧ (arrivals i).req.uri.path ≠ "/metrics"
    · rw [if_pos hcalled]
      cases hr : s.recording i with
      | nil => rfl
      | cons u us =>
        simp only [hr] at h
        exact h
    · rw [if_neg hcalled]
  | elapsed i ms =>
    simp only [label] at hl
    split at hl <;> cases hl <;> rfl
  | load i =>
    obtain ⟨_, ha⟩ := Option.ite_none_right_eq_some.mp hl
    obtain rfl := Option.some.inj ha
    rfl
  | _ => cases hl

/-- What a page that is being served has loaded shows no more classified requests than requests
but for those whose `record` overtook it. -/
theorem page_balance (arrivals : ℕ → Arrival) (hostParses : String → Bool)
    (current : ProxyState.AppState) (flags : ℕ → Bool) (maxIdlePerHost k : ℕ)
    {tr : List (State × Event)} {u : State}
    (h : Run (next arrivals hostParses) (boot current flags maxIdlePerHost) tr u)
    (hover : Obeys (fun s e => noOverflow s e = true) tr)
    (hdone : (u.loads k).length = renderLoads.length) :
    MetricsScrape.classesOf (loaded (u.loads k)) ≤ loaded (u.loads k) .requestsTotal +
      (MetricsScrape.overtaking ((scrape arrivals hostParses k).trace tr)).card := by
  have hboot : (scrape arrivals hostParses k).view (boot current flags maxIdlePerHost) =
      MetricsScrape.start := rfl
  have hrun := (scrape arrivals hostParses k).run h
    ⟨∅, fun _ => [], ledger_boot current flags maxIdlePerHost⟩ fun _ _ => trivial
  rw [hboot] at hrun
  have hsteps : Obeys (fun s e => MetricsScrape.noOverflow s e = true)
      ((scrape arrivals hostParses k).trace tr) := by
    rw [Simulation.obeys_trace]
    refine hover.imp ?_
    intro s e hs a ha
    exact noOverflow_view hs ha
  exact Nat.le_of_add_right_le (MetricsScrape.scrape_balance hrun hsteps hdone).le

end ServedScrapes
