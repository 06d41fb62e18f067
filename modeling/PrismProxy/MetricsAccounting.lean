import Mathlib.Algebra.BigOperators.Group.Finset.Piecewise
import PrismProxy.RequestServing

/-! # What the counters count

Every exit of `handle` but the `/metrics` page records once, with the status it answers with.
While records are under way the counters lag behind the answers by what is still owed. -/
namespace MetricsAccounting

open TransitionRuns HttpMessage ProxyMetrics RequestServing ProxyConfig
open ProxyPlugin (PluginRuntime runPlugins)
open RequestMediation (findRoute FirstMatch findRoute_iff Mediated)

variable {arrivals : ℕ → Arrival} {hostParses : String → Bool}

def blocks : Option (Except ProxyError Bool) → Bool
  | some (.ok blocked) => blocked
  | _ => false

/-- Read off the state a request has loaded and the health flag it has read. -/
def blockedByPlugin (req : Request) (m : RequestMediation.State) : Bool :=
  match m.loaded, m.checked with
  | [state], [true] =>
    (findRoute state.routes req.uri.path).any fun rs =>
      blocks (rs.runtime.runOnRequest req.method req.uri.path)
  | _, _ => false

def Flagged (req : Request) (m : RequestMediation.State) : Prop :=
  match m.pc with
  | .routed (.ok (_, blocked)) => blocked = blockedByPlugin req m
  | .routed (.error _) => blockedByPlugin req m = false
  | _ => True

def OnPath (req : Request) (m : RequestMediation.State) : Prop :=
  match m.pc with
  | .start | .answered _ => True
  | .metrics => req.uri.path = "/metrics"
  | _ => req.uri.path ≠ "/metrics"

theorem blockedByPlugin_of_run {req : Request} {m : RequestMediation.State}
    {state : ProxyState.AppState} {rs : ProxyState.RouteState} (hl : m.loaded = [state])
    (hf : findRoute state.routes req.uri.path = some rs) (hc : m.checked = [true])
    {result : Option (Except ProxyError Bool)}
    (hr : runPlugins rs.runtime.plugins req.method req.uri.path = result) :
    blockedByPlugin req m = blocks result := by
  subst hr
  simp only [blockedByPlugin, hl, hc, hf, Option.any_some, PluginRuntime.runOnRequest]

theorem blockedByPlugin_of_checked {req : Request} {m : RequestMediation.State}
    (hc : m.checked ≠ [true]) : blockedByPlugin req m = false := by
  unfold blockedByPlugin
  split
  · rename_i hchecked
    exact absurd hchecked hc
  · rfl

theorem flagged_step {req : Request} {m m' : RequestMediation.State} {e : RequestMediation.Event}
    (hm : Mediated req m) (hs : Flagged req m) (h : RequestMediation.next req m e = some m') :
    Flagged req m' := by
  cases RequestMediation.next_cases h with
  | store state => exact hs
  | setFlag j healthy => exact hs
  | noRoute state pc _ =>
    simp only [Mediated, pc] at hm
    exact blockedByPlugin_of_checked (by simp [hm.2.1])
  | unhealthy state rs pc _ =>
    simp only [Mediated, pc] at hm
    exact blockedByPlugin_of_checked (by simp [hm.2.2.1])
  | pluginError state rs plugin todo e pc run =>
    simp only [Mediated, pc, runPlugins, run] at hm
    obtain ⟨hl, hf, hc, -, hrest⟩ := hm
    exact blockedByPlugin_of_run hl hf hc hrest
  | pluginBlocks state rs plugin todo pc run =>
    simp only [Mediated, pc, runPlugins, run] at hm
    obtain ⟨hl, hf, hc, -, hrest⟩ := hm
    exact (blockedByPlugin_of_run hl hf hc hrest).symm
  | healthText body pc =>
    simp only [Mediated, pc] at hm
    exact (blockedByPlugin_of_checked (by simp [hm.2.1])).symm
  | forwarded upstream timeoutMs result pc =>
    simp only [Mediated, pc] at hm
    obtain ⟨-, state, rs, hl, hfirst, hc, hpass, -⟩ := hm
    have hnot := blockedByPlugin_of_run hl (findRoute_iff.mpr hfirst) hc
      (ProxyPlugin.runPlugins_pass_iff.mpr hpass)
    cases result with
    | error e => exact hnot
    | ok resp => exact hnot.symm
  | _ => trivial

theorem onPath_step {req : Request} {m m' : RequestMediation.State} {e : RequestMediation.Event}
    (hs : OnPath req m) (h : RequestMediation.next req m e = some m') : OnPath req m' := by
  cases RequestMediation.next_cases h with
  | store state => exact hs
  | setFlag j healthy => exact hs
  | toMetrics pc path => exact path
  | toHealth pc path => simp [OnPath, path]
  | toRoute pc notMetrics _ => exact notMetrics
  | metricsText body pc => trivial
  | answer ms resp blocked pc => trivial
  | answerError ms e pc => trivial
  | load pc | noRoute _ pc _ | found _ _ pc _ | healthy _ _ pc _ | unhealthy _ _ pc _
  | forward _ _ pc | pluginError _ _ _ _ _ pc _ | pluginBlocks _ _ _ _ pc _
  | pluginPasses _ _ _ _ pc _ | healthText _ pc | forwarded _ _ _ pc =>
    simpa [OnPath, pc] using hs

structure Decided (req : Request) (m : RequestMediation.State) : Prop where
  mediated : Mediated req m
  flagged : Flagged req m
  onPath : OnPath req m

theorem decided_step {req : Request} {m m' : RequestMediation.State} {e : RequestMediation.Event}
    (hs : Decided req m) (h : RequestMediation.next req m e = some m') : Decided req m' :=
  ⟨RequestMediation.mediated_step hs.mediated h, flagged_step hs.mediated hs.flagged h,
    onPath_step hs.onPath h⟩

def blocked (arrivals : ℕ → Arrival) (s : State) (i : ℕ) : Bool :=
  blockedByPlugin (arrivals i).req (s.mediation i)

/-- The updates of the `record` of an answered request. -/
def Due (arrivals : ℕ → Arrival) (s : State) (i : ℕ) (us : List Update) : Prop :=
  ∃ resp ms, s.answer i = some resp ∧ us = record resp.status ms (blocked arrivals s i)

/-- `A` are the answered requests that record, each with the updates due for it. -/
structure Ledger (arrivals : ℕ → Arrival) (s : State) (A : Finset ℕ) (due : ℕ → List Update) :
    Prop where
  decided : ∀ i, Decided (arrivals i).req (s.mediation i)
  off : ∀ i ∈ A, (arrivals i).req.uri.path ≠ "/metrics"
  dues : ∀ i ∈ A, Due arrivals s i (due i)
  every : ∀ i resp, (arrivals i).req.uri.path ≠ "/metrics" → s.answer i = some resp → i ∈ A
  silent : ∀ i, i ∉ A → s.recording i = []
  completed : ∀ i, i ∈ s.completed ↔ (s.answer i).isSome ∧ s.recording i = []
  balanced : Balanced s.metrics s.recording due A
  bounded : ∀ c, s.metrics c < 2 ^ 64

theorem ledger_boot (current : ProxyState.AppState) (flags : ℕ → Bool) (maxIdlePerHost : ℕ) :
    Ledger arrivals (boot current flags maxIdlePerHost) ∅ fun _ => [] := by
  refine ⟨?_, by simp, by simp, ?_, fun _ _ => rfl, ?_, balanced_zero _ _, ?_⟩
  · intro i
    exact ⟨⟨rfl, rfl, rfl⟩, trivial, trivial⟩
  · intro i resp _ h
    cases h
  · intro i
    constructor
    · intro h
      simp [boot] at h
    · rintro ⟨h, -⟩
      cases h
  · intro c
    simp [boot, Metrics.zero]

theorem blocked_of_ne {s : State} {i j : ℕ} (h : i ≠ j) (m : RequestMediation.State) :
    blocked arrivals (s.setMediation j m) i = blocked arrivals s i := by
  simp only [blocked, mediation_of_ne h]

theorem Due.congr {s t : State} {i : ℕ} {us : List Update} (h : Due arrivals s i us)
    (ha : t.answer i = s.answer i) (hb : blocked arrivals t i = blocked arrivals s i) :
    Due arrivals t i us := by
  obtain ⟨resp, ms, hresp, rfl⟩ := h
  exact ⟨resp, ms, ha.trans hresp, by rw [hb]⟩

theorem Ledger.frame {s t : State} {A : Finset ℕ} {due : ℕ → List Update}
    (h : Ledger arrivals s A due) (hd : ∀ i, Decided (arrivals i).req (t.mediation i))
    (ha : ∀ i, t.answer i = s.answer i)
    (hb : ∀ i, (s.answer i).isSome → blocked arrivals t i = blocked arrivals s i)
    (hm : t.metrics = s.metrics) (hr : t.recording = s.recording)
    (hc : t.completed = s.completed) : Ledger arrivals t A due := by
  refine ⟨hd, h.off, ?_, ?_, ?_, ?_, ?_, ?_⟩
  · intro i hi
    have hdue := h.dues i hi
    refine hdue.congr (ha i) (hb i ?_)
    obtain ⟨resp, _, hresp, _⟩ := hdue
    rw [hresp]
    rfl
  · intro i resp hpath hi
    rw [ha] at hi
    exact h.every i resp hpath hi
  · rw [hr]
    exact h.silent
  · intro i
    rw [hc, ha, hr]
    exact h.completed i
  · rw [hm, hr]
    exact h.balanced
  · rw [hm]
    exact h.bounded

theorem Ledger.unanswered {s : State} {j : ℕ} {m : RequestMediation.State} {A : Finset ℕ}
    {due : ℕ → List Update} (h : Ledger arrivals s A due)
    (hd : ∀ i, Decided (arrivals i).req ((s.setMediation j m).mediation i))
    (hs : s.answer j = none) (ht : (s.setMediation j m).answer j = none) :
    Ledger arrivals (s.setMediation j m) A due := by
  refine h.frame hd ?_ ?_ rfl rfl rfl
  · intro i
    by_cases hij : i = j
    · rw [hij, hs, ht]
    · exact answer_of_ne hij m
  · intro i hi
    have hij : i ≠ j := by
      rintro rfl
      rw [hs] at hi
      cases hi
    exact blocked_of_ne hij m

theorem unanswered_step {req : Request} {m m' : RequestMediation.State}
    (h : RequestMediation.next req m .step = some m') :
    (∀ resp, m.pc ≠ .answered resp) ∧ ∀ resp, m'.pc ≠ .answered resp := by
  cases RequestMediation.next_cases h <;> simp [*]

theorem unanswered_forwarded {req : Request} {m m' : RequestMediation.State}
    {result : Except ProxyError Response}
    (h : RequestMediation.next req m (.forwarded result) = some m') :
    (∀ resp, m.pc ≠ .answered resp) ∧ ∀ resp, m'.pc ≠ .answered resp := by
  cases RequestMediation.next_cases h
  simp [*]

theorem unanswered_health {req : Request} {m m' : RequestMediation.State} {uptime : String}
    (hp : m.pc = .health) (h : RequestMediation.next req m (.text uptime) = some m') :
    (∀ resp, m.pc ≠ .answered resp) ∧ ∀ resp, m'.pc ≠ .answered resp := by
  cases RequestMediation.next_cases h with
  | metricsText body pc => cases hp.symm.trans pc
  | healthText body pc => simp [hp]

/-- `handle` answers with what it records: the status of the response, and the flag `route`
gave with it. -/
theorem elapsed_records {req : Request} {m m' : RequestMediation.State} {ms : ℕ}
    {result : Except ProxyError (Response × Bool)} (hp : m.pc = .routed result)
    (hf : Flagged req m) (h : RequestMediation.next req m (.elapsed ms) = some m') :
    ∃ resp, m'.pc = .answered resp ∧
      recordOf result ms = record resp.status ms (blockedByPlugin req m') := by
  simp only [Flagged, hp] at hf
  cases result with
  | error e =>
    simp only [RequestMediation.next, hp] at h
    cases h
    exact ⟨_, rfl, congrArg (record (RequestMediation.errorResponse e).status ms) hf.symm⟩
  | ok r =>
    simp only [RequestMediation.next, hp] at h
    cases h
    exact ⟨_, rfl, congrArg (record r.1.status ms) hf⟩

theorem ledger_elapsed {s : State} {j ms : ℕ} {m : RequestMediation.State}
    {result : Except ProxyError (Response × Bool)} {A : Finset ℕ} {due : ℕ → List Update}
    (h : Ledger arrivals s A due)
    (hd : ∀ i, Decided (arrivals i).req ((s.setMediation j m).mediation i))
    (hp : s.pc j = .routed result)
    (hm : RequestMediation.next (arrivals j).req (s.mediation j) (.elapsed ms) = some m) :
    Ledger arrivals ((s.setMediation j m).setRecording j (recordOf result ms)) (insert j A)
      (Function.update due j (recordOf result ms)) := by
  obtain ⟨resp, hresp, hrec⟩ := elapsed_records hp (h.decided j).flagged hm
  have hpath : (arrivals j).req.uri.path ≠ "/metrics" := by
    have hon := (h.decided j).onPath
    rw [OnPath, show (s.mediation j).pc = .routed result from hp] at hon
    exact hon
  have hnone : s.answer j = none := unanswered hp (by simp)
  have hj : j ∉ A := by
    intro hj
    obtain ⟨_, _, ha, _⟩ := h.dues j hj
    rw [hnone] at ha
    cases ha
  have hanswer : (s.setMediation j m).answer j = some resp := by
    rw [answer_eq, pc_setMediation, hresp]
  have hne : recordOf result ms ≠ [] := by
    rw [hrec]
    simp [record]
  refine ⟨hd, ?_, ?_, ?_, ?_, ?_, h.balanced.begin hj _, h.bounded⟩
  · intro i hi
    rcases Finset.mem_insert.mp hi with rfl | hi
    · exact hpath
    · exact h.off i hi
  · intro i hi
    by_cases hij : i = j
    · subst hij
      refine ⟨resp, ms, hanswer, ?_⟩
      rw [Function.update_self, hrec]
      simp [blocked, State.setRecording, State.setMediation]
    · rw [Function.update_of_ne hij]
      exact (h.dues i ((Finset.mem_insert.mp hi).resolve_left hij)).congr (answer_of_ne hij m)
        (blocked_of_ne hij m)
  · intro i resp' hi ha
    by_cases hij : i = j
    · rw [hij]
      exact Finset.mem_insert_self j A
    · exact Finset.mem_insert_of_mem (h.every i resp' hi ((answer_of_ne hij m).symm.trans ha))
  · intro i hi
    obtain ⟨hij, hi⟩ := not_or.mp (mt Finset.mem_insert.mpr hi)
    exact (Function.update_of_ne hij ..).trans (h.silent i hi)
  · intro i
    by_cases hij : i = j
    · subst hij
      constructor
      · intro hc
        have ha := ((h.completed i).mp hc).1
        rw [hnone] at ha
        cases ha
      · rintro ⟨-, hr⟩
        exact absurd ((Function.update_self ..).symm.trans hr) hne
    · have hr : ((s.setMediation j m).setRecording j (recordOf result ms)).recording i =
          s.recording i := Function.update_of_ne hij ..
      rw [hr]
      exact (h.completed i).trans (by rw [← answer_of_ne hij m]; rfl)

theorem ledger_write {s : State} {j : ℕ} {u : Update} {us : List Update} {A : Finset ℕ}
    {due : ℕ → List Update} (h : Ledger arrivals s A due) (hr : s.recording j = u :: us) :
    Ledger arrivals (s.write j u us) A due := by
  have hj : j ∈ A := by
    by_contra hj
    rw [h.silent j hj] at hr
    cases hr
  have hanswer : ∀ i, (s.write j u us).answer i = s.answer i := by
    intro i
    simp only [State.answer, State.pc, write_mediation]
  have hcompleted : ∀ i, i ∈ (s.write j u us).completed ↔
      i ∈ s.completed ∨ i = j ∧ us = [] := by
    intro i
    unfold State.write
    by_cases hus : us = []
    · simp [hus, State.complete, State.setRecording, State.setMetrics, or_comm]
    · simp [hus, State.setRecording, State.setMetrics]
  refine ⟨?_, h.off, ?_, ?_, ?_, ?_, ?_, ?_⟩
  · rw [write_mediation]
    exact h.decided
  · intro i hi
    refine (h.dues i hi).congr (hanswer i) ?_
    simp only [blocked, write_mediation]
  · intro i resp hi ha
    exact h.every i resp hi ((hanswer i).symm.trans ha)
  · intro i hi
    have hij : i ≠ j := by
      rintro rfl
      exact hi hj
    rw [write_recording, Function.update_of_ne hij]
    exact h.silent i hi
  · intro i
    rw [hcompleted, hanswer, write_recording]
    by_cases hij : i = j
    · subst hij
      obtain ⟨resp, _, ha, _⟩ := h.dues i hj
      have hnot : i ∉ s.completed := by
        intro hc
        rw [((h.completed i).mp hc).2] at hr
        cases hr
      simp [hnot, ha]
    · simp [hij, h.completed i]
  · rw [write_metrics, write_recording]
    exact h.balanced.write hj hr
  · rw [write_metrics]
    exact fetchAdd_lt h.bounded u

theorem ledger_page {s : State} {j : ℕ} {text : String} {m : RequestMediation.State}
    {A : Finset ℕ} {due : ℕ → List Update} (h : Ledger arrivals s A due)
    (hd : ∀ i, Decided (arrivals i).req ((s.setMediation j m).mediation i))
    (hp : s.pc j = .metrics)
    (hm : RequestMediation.next (arrivals j).req (s.mediation j) (.text text) = some m) :
    Ledger arrivals ((s.setMediation j m).complete j) A due := by
  have hpath : (arrivals j).req.uri.path = "/metrics" := by
    have hon := (h.decided j).onPath
    rw [OnPath, show (s.mediation j).pc = .metrics from hp] at hon
    exact hon
  have hj : j ∉ A := fun hj => h.off j hj hpath
  have hanswered : ((s.setMediation j m).answer j).isSome := by
    simp only [RequestMediation.next, show (s.mediation j).pc = .metrics from hp] at hm
    cases hm
    simp [State.answer, pc_setMediation]
  refine ⟨hd, h.off, ?_, ?_, h.silent, ?_, h.balanced, h.bounded⟩
  · intro i hi
    have hij : i ≠ j := by
      rintro rfl
      exact hj hi
    exact (h.dues i hi).congr (answer_of_ne hij m) (blocked_of_ne hij m)
  · intro i resp hi ha
    have hij : i ≠ j := by
      rintro rfl
      exact hi hpath
    exact h.every i resp hi ((answer_of_ne hij m).symm.trans ha)
  · intro i
    by_cases hij : i = j
    · subst hij
      exact ⟨fun _ => ⟨hanswered, h.silent i hj⟩, fun _ => Finset.mem_insert_self ..⟩
    · have hc : i ∈ ((s.setMediation j m).complete j).completed ↔ i ∈ s.completed := by
        simp [State.complete, State.setMediation, hij]
      rw [hc]
      exact (h.completed i).trans (by rw [← answer_of_ne hij m]; rfl)

theorem ledger_step {s t : State} {e : Event} {A : Finset ℕ} {due : ℕ → List Update}
    (h : Ledger arrivals s A due) (hs : Step arrivals hostParses s e t) :
    ∃ A' due', Ledger arrivals t A' due' := by
  have hd := mediation_invariant (fun i m e m' => decided_step) h.decided hs
  cases hs with
  | store state =>
    exact ⟨A, due, h.frame hd (fun _ => rfl) (fun _ _ => rfl) rfl rfl rfl⟩
  | setFlag j healthy =>
    exact ⟨A, due, h.frame hd (fun _ => rfl) (fun _ _ => rfl) rfl rfl rfl⟩
  | step j m hm =>
    obtain ⟨hbefore, hafter⟩ := unanswered_step hm
    exact ⟨A, due, h.unanswered hd (unanswered rfl hbefore)
      (unanswered (pc_setMediation m) hafter)⟩
  | health j uptime m hp hm =>
    obtain ⟨hbefore, hafter⟩ := unanswered_health hp hm
    exact ⟨A, due, h.unanswered hd (unanswered rfl hbefore)
      (unanswered (pc_setMediation m) hafter)⟩
  | load j c hp =>
    exact ⟨A, due, h.frame hd (fun _ => rfl) (fun _ _ => rfl) rfl rfl rfl⟩
  | page j text m hp hm => exact ⟨A, due, ledger_page h hd hp hm⟩
  | forward e f he hf =>
    exact ⟨A, due, h.frame hd (fun _ => rfl) (fun _ _ => rfl) rfl rfl rfl⟩
  | forwarded j result m hp hm =>
    obtain ⟨hbefore, hafter⟩ := unanswered_forwarded hm
    exact ⟨A, due, h.unanswered hd (unanswered rfl hbefore)
      (unanswered (pc_setMediation m) hafter)⟩
  | elapsed j ms result m hp hm => exact ⟨_, _, ledger_elapsed h hd hp hm⟩
  | record j u us hr => exact ⟨A, due, ledger_write h hr⟩

/-- Completed calls of `handle` on other paths than `/metrics`. -/
def counted (arrivals : ℕ → Arrival) (s : State) (p : ℕ → Bool) : ℕ :=
  (s.completed.filter fun i => (arrivals i).req.uri.path ≠ "/metrics" ∧ p i = true).card

def sent (arrivals : ℕ → Arrival) (s : State) (p : ℕ → Bool) (i : ℕ) : Bool :=
  !blocked arrivals s i && (s.answer i).any fun resp => p resp.status

def inClass (lo status : ℕ) : Bool := lo ≤ status && status ≤ lo + 99

def otherClass (status : ℕ) : Bool :=
  !inClass 200 status && !inClass 400 status && !inClass 500 status

structure Accounted (arrivals : ℕ → Arrival) (s : State) : Prop where
  total : s.metrics .requestsTotal = counted arrivals s (fun _ => true) % 2 ^ 64
  blocked : s.metrics .requestsBlocked = counted arrivals s (blocked arrivals s) % 2 ^ 64
  success : s.metrics .requests2xx = counted arrivals s (sent arrivals s (inClass 200)) % 2 ^ 64
  clientError :
    s.metrics .requests4xx = counted arrivals s (sent arrivals s (inClass 400)) % 2 ^ 64
  serverError :
    s.metrics .requests5xx = counted arrivals s (sent arrivals s (inClass 500)) % 2 ^ 64
  rest : s.metrics .requestsTotal =
    (s.metrics .requestsBlocked + s.metrics .requests2xx + s.metrics .requests4xx +
      s.metrics .requests5xx + counted arrivals s (sent arrivals s otherClass)) % 2 ^ 64

theorem Ledger.counted_eq {s : State} {A : Finset ℕ} {due : ℕ → List Update}
    (h : Ledger arrivals s A due) (hidle : ∀ i, s.recording i = []) (p : ℕ → Bool) :
    counted arrivals s p = (A.filter fun i => p i = true).card := by
  refine congrArg Finset.card (Finset.ext fun i => ?_)
  simp only [Finset.mem_filter]
  constructor
  · rintro ⟨hc, hpath, hp⟩
    obtain ⟨resp, ha⟩ := Option.isSome_iff_exists.mp ((h.completed i).mp hc).1
    exact ⟨h.every i resp hpath ha, hp⟩
  · rintro ⟨hi, hp⟩
    obtain ⟨resp, _, ha, _⟩ := h.dues i hi
    exact ⟨(h.completed i).mpr ⟨by rw [ha]; rfl, hidle i⟩, h.off i hi, hp⟩

theorem Ledger.counter {s : State} {A : Finset ℕ} {due : ℕ → List Update}
    (h : Ledger arrivals s A due) (hidle : ∀ i, s.recording i = []) {c : Counter}
    (hc : c ≠ .responseTimeMsTotal) {p : ℕ → Bool}
    (hp : ∀ i resp, s.answer i = some resp →
      counts resp.status (MetricsAccounting.blocked arrivals s i) c = p i) :
    s.metrics c = counted arrivals s p % 2 ^ 64 := by
  rw [h.balanced.settled h.bounded (fun i _ => hidle i) c, h.counted_eq hidle,
    Finset.card_filter]
  congr 1
  refine Finset.sum_congr rfl fun i hi => ?_
  obtain ⟨resp, ms, ha, hdue⟩ := h.dues i hi
  rw [hdue, owed_record hc, hp i resp ha]

theorem counts_class (status : ℕ) (blocked : Bool) :
    counts status blocked .requests2xx = (!blocked && inClass 200 status) ∧
    counts status blocked .requests4xx = (!blocked && inClass 400 status) ∧
    counts status blocked .requests5xx = (!blocked && inClass 500 status) := by
  obtain ⟨h2, h4, h5⟩ := statusCounter_iff status
  simp only [counts, inClass, beq_eq_decide, h2, h4, h5, Bool.decide_and]
  simp

theorem class_partition (status : ℕ) (blocked : Bool) :
    ((if blocked then 1 else 0) + (if !blocked && inClass 200 status then 1 else 0) +
      (if !blocked && inClass 400 status then 1 else 0) +
      (if !blocked && inClass 500 status then 1 else 0) +
      (if !blocked && otherClass status then 1 else 0) : ℕ) = 1 := by
  cases blocked with
  | true => rfl
  | false =>
    have hexcl : ∀ a b, a + 99 < b → inClass a status = true → inClass b status = false := by
      intro a b hab ha
      simp only [inClass, Bool.and_eq_true, decide_eq_true_eq, Bool.and_eq_false_iff,
        decide_eq_false_iff_not] at ha ⊢
      omega
    have h24 := hexcl 200 400 (by omega)
    have h25 := hexcl 200 500 (by omega)
    have h45 := hexcl 400 500 (by omega)
    by_cases h2 : inClass 200 status = true
    · simp [otherClass, h2, h24 h2, h25 h2]
    · by_cases h4 : inClass 400 status = true
      · simp [otherClass, h2, h4, h45 h4]
      · by_cases h5 : inClass 500 status = true <;> simp [otherClass, h2, h4, h5]

theorem sent_eq {s : State} {i : ℕ} {resp : Response} (h : s.answer i = some resp)
    (p : ℕ → Bool) : sent arrivals s p i = (!blocked arrivals s i && p resp.status) := by
  rw [sent, h, Option.any_some]

theorem Ledger.counted_partition {s : State} {A : Finset ℕ} {due : ℕ → List Update}
    (h : Ledger arrivals s A due) (hidle : ∀ i, s.recording i = []) :
    counted arrivals s (MetricsAccounting.blocked arrivals s) +
      counted arrivals s (sent arrivals s (inClass 200)) +
      counted arrivals s (sent arrivals s (inClass 400)) +
      counted arrivals s (sent arrivals s (inClass 500)) +
      counted arrivals s (sent arrivals s otherClass) = counted arrivals s fun _ => true := by
  simp only [h.counted_eq hidle, Finset.card_filter, ← Finset.sum_add_distrib]
  refine Finset.sum_congr rfl fun i hi => ?_
  obtain ⟨resp, _, ha, _⟩ := h.dues i hi
  simp only [sent_eq ha]
  exact class_partition resp.status _

theorem Ledger.accounted {s : State} {A : Finset ℕ} {due : ℕ → List Update}
    (h : Ledger arrivals s A due) (hidle : ∀ i, s.recording i = []) : Accounted arrivals s := by
  have htotal := h.counter hidle (c := .requestsTotal) (by simp) (p := fun _ => true)
    (fun _ _ _ => rfl)
  have hblocked := h.counter hidle (c := .requestsBlocked) (by simp)
    (p := MetricsAccounting.blocked arrivals s) (fun _ _ _ => rfl)
  have hsuccess := h.counter hidle (c := .requests2xx) (by simp)
    (p := sent arrivals s (inClass 200)) fun i resp ha => by
      rw [sent_eq ha, (counts_class ..).1]
  have hclient := h.counter hidle (c := .requests4xx) (by simp)
    (p := sent arrivals s (inClass 400)) fun i resp ha => by
      rw [sent_eq ha, (counts_class ..).2.1]
  have hserver := h.counter hidle (c := .requests5xx) (by simp)
    (p := sent arrivals s (inClass 500)) fun i resp ha => by
      rw [sent_eq ha, (counts_class ..).2.2]
  refine ⟨htotal, hblocked, hsuccess, hclient, hserver, ?_⟩
  have hsum := h.counted_partition hidle
  rw [htotal, hblocked, hsuccess, hclient, hserver]
  omega

/-- Whenever no `record` is under way the counters are those of the completed requests. -/
theorem metrics_accounted (arrivals : ℕ → Arrival) (hostParses : String → Bool)
    (current : ProxyState.AppState) (flags : ℕ → Bool) (maxIdlePerHost : ℕ)
    {tr : List (State × Event)} {u : State}
    (h : Run (next arrivals hostParses) (boot current flags maxIdlePerHost) tr u)
    (hidle : ∀ i, u.recording i = []) : Accounted arrivals u := by
  have hledger : ∃ A due, Ledger arrivals u A due := by
    refine h.invariant (I := fun s => ∃ A due, Ledger arrivals s A due) ?_
      ⟨∅, fun _ => [], ledger_boot current flags maxIdlePerHost⟩
    rintro s e t ⟨A, due, hs⟩ hn
    exact ledger_step hs (step_of_next arrivals hostParses hn)
  obtain ⟨A, due, hl⟩ := hledger
  exact hl.accounted hidle

def sampleArrival (path : String) : Arrival :=
  ⟨⟨"GET", .origin path none, [], []⟩, "10.0.0.7", false⟩

def sampleStart : State :=
  boot (RequestMediation.sampleState "127.0.0.1:3000") (fun _ => true) 1

def twoPaths (i : ℕ) : Arrival := if i = 0 then sampleArrival "/health" else sampleArrival "/none"

theorem metrics_accounted_interleaved : ∃ tr u,
    Run (next twoPaths fun _ => true) sampleStart tr u ∧
    (u.metrics .requestsTotal, u.metrics .requests2xx, u.metrics .requests4xx) = (2, 1, 1) ∧
    Accounted twoPaths u := by
  have hreplay : ∃ u, exec (next twoPaths fun _ => true) sampleStart
      [.step 0, .step 1, .health 0 "0.1", .step 1, .step 1, .elapsed 0 2, .elapsed 1 5, .record 0,
        .record 1, .record 1, .record 0, .record 0, .record 1] = some u ∧
      (∀ i, u.recording i = []) ∧
      (u.metrics .requestsTotal, u.metrics .requests2xx, u.metrics .requests4xx) = (2, 1, 1) :=
    ⟨_, rfl, fun | 0 => rfl | 1 => rfl | _ + 2 => rfl, rfl⟩
  obtain ⟨u, hu, hidle, hv⟩ := hreplay
  exact ⟨_, u, run_of_exec hu, hv, metrics_accounted _ _ _ _ _ (run_of_exec hu) hidle⟩

def sampleForward : List Event :=
  [.call 0 .start, .call 0 (.collect (.ok ())), .call 0 .acquire, .call 0 (.connect (.ok ())),
    .call 0 (.handshake (.ok ())), .call 0 (.send (.ok ())), .receive 0,
    .call 0 (.respond 0 ⟨600, []⟩), .call 0 .release, .drain 0,
    .call 0 (.body (.ok []))].map Event.forward

/-- A response of status 600 is in the total and in no other counter, and is neither 1xx nor 3xx. -/
theorem other_status_uncounted : ¬ ∀ (arrivals : ℕ → Arrival) (hostParses : String → Bool)
    (current : ProxyState.AppState) (flags : ℕ → Bool) (maxIdlePerHost : ℕ)
    (tr : List (State × Event)) (u : State),
    Run (next arrivals hostParses) (boot current flags maxIdlePerHost) tr u →
    (∀ i, u.recording i = []) →
    u.metrics .requestsTotal =
      (u.metrics .requestsBlocked + u.metrics .requests2xx + u.metrics .requests4xx +
        u.metrics .requests5xx +
        counted arrivals u (sent arrivals u fun st => inClass 100 st || inClass 300 st)) %
        2 ^ 64 := by
  intro hall
  have hreplay : ∃ u, exec (next (fun _ => sampleArrival "/api") fun _ => true) sampleStart
      (List.replicate 5 (.step 0) ++ sampleForward ++
        [.forwarded 0, .elapsed 0 3, .record 0, .record 0]) = some u ∧
      (∀ i, u.recording i = []) ∧ u.metrics .requestsTotal = 1 ∧
      (u.metrics .requestsBlocked + u.metrics .requests2xx + u.metrics .requests4xx +
        u.metrics .requests5xx +
        counted (fun _ => sampleArrival "/api") u
          (sent (fun _ => sampleArrival "/api") u fun st => inClass 100 st || inClass 300 st)) %
        2 ^ 64 = 0 :=
    ⟨_, rfl, fun | 0 => rfl | _ + 1 => rfl, rfl, rfl⟩
  obtain ⟨u, hu, hidle, htotal, hrest⟩ := hreplay
  have heq := hall _ _ _ _ _ _ u (run_of_exec hu) hidle
  rw [htotal, hrest] at heq
  cases heq

end MetricsAccounting
