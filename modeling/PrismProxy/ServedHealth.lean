import PrismProxy.HealthHysteresis
import PrismProxy.ServedFreshness

/-! # Why a request is refused as unhealthy

A request reads one flag, once. What it reads is what the pings of one loop made of it by then,
if its state is the one published first; a flag of any other state nobody writes. -/
namespace ServedHealth

open TransitionRuns ProxyConfig ProxyHealthCheck StatePublication WholeProxy
open HealthLoops (watched initial)
open ServedFreshness (loadedBy)
open HealthHysteresis (Unhealthy)
open RequestMediation (FirstMatch Mediated findRoute errorResponse)
open RequestServing (Arrival)

variable {H : Host} {arrivals : ℕ → Arrival} {peers : ℕ → String} {hostParses : String → Bool}

/-- What the flag of a published route is in a state. -/
inductive FlagRead (s : ProxyServer.State H) (p : Publication H) (rs : ProxyState.RouteState) :
    Bool → Prop where
  | unwatched (later : p ∈ s.log.dropLast) : FlagRead s p rs true
  | watched (first : initial s = some p) (healthy : Bool)
    (running : ∃ l ∈ s.loops, l.watches = watched rs)
    (latch : ∀ l ∈ s.loops, l.watches = watched rs →
      (healthy = false ↔ Unhealthy failThreshold recoverThreshold l.pings)) :
    FlagRead s p rs healthy

theorem flagRead_now {s : ProxyServer.State H} (hs : HealthLoops.Invariant s) {p : Publication H}
    (hp : p ∈ s.log) {rs : ProxyState.RouteState} (hrs : rs ∈ p.state.routes) :
    FlagRead s p rs (s.flags rs.healthy) := by
  have hmon := hs.initialMonitored
  have hne : s.log ≠ [] := List.ne_nil_of_mem hp
  rw [← List.dropLast_append_getLast hne] at hp
  rcases List.mem_append.mp hp with hlater | hfirst
  · rw [(hmon.unwatched p hlater rs hrs).2]
    exact .unwatched hlater
  · have hinit : initial s = some p := by
      rw [List.mem_singleton.mp hfirst]
      exact List.getLast?_eq_some_getLast hne
    have hspawned : watched rs ∈ s.loops.map HealthLoop.watches := by
      rw [hs.spawned p hinit]
      exact List.mem_map_of_mem hrs
    refine .watched hinit _ (List.mem_map.mp hspawned) ?_
    intro l hl hw
    have hflag : l.healthy = rs.healthy := congrArg Prod.snd hw
    rw [← hflag]
    exact HealthHysteresis.tracks_latch (hs.tracks l hl)

theorem check_cases {req : HttpMessage.Request} {m m' : RequestMediation.State}
    {e : RequestMediation.Event} (hm : Mediated req m)
    (h : RequestMediation.next req m e = some m') :
    m'.checked = m.checked ∨ (m.checked = [] ∧ ∃ state rs, m.loaded = [state] ∧
      findRoute state.routes req.uri.path = some rs ∧ m'.checked = [m.flags rs.healthy]) := by
  cases RequestMediation.next_cases h with
  | healthy state rs pc flag | unhealthy state rs pc flag =>
    simp only [Mediated, pc] at hm
    obtain ⟨hl, hfind, hc, _⟩ := hm
    exact Or.inr ⟨hc, state, rs, hl, hfind, by simp [hc, flag]⟩
  | _ => exact Or.inl rfl

/-- A request that found its upstream unhealthy is answered so. -/
def Refused (req : HttpMessage.Request) (m : RequestMediation.State) : Prop :=
  m.checked = [false] → ∃ state rs, m.loaded = [state] ∧
    findRoute state.routes req.uri.path = some rs ∧
    (m.pc = .routed (.error (.upstreamUnhealthy rs.route.upstream)) ∨
      m.pc = .answered (errorResponse (.upstreamUnhealthy rs.route.upstream)))

theorem refused_step {req : HttpMessage.Request} {m m' : RequestMediation.State}
    {e : RequestMediation.Event} (hm : Mediated req m) (hr : Refused req m)
    (h : RequestMediation.next req m e = some m') : Refused req m' := by
  have busy : ∀ {pc}, m.pc = pc → (∀ e, pc ≠ .routed (.error e)) →
      (∀ resp, pc ≠ .answered resp) → m.checked ≠ [false] := by
    rintro _ rfl hrouted hanswered hc
    obtain ⟨_, _, _, _, hpc | hpc⟩ := hr hc
    · exact hrouted _ hpc
    · exact hanswered _ hpc
  cases RequestMediation.next_cases h with
  | store state | setFlag j healthy => exact hr
  | unhealthy state rs pc flag =>
    intro _
    simp only [Mediated, pc] at hm
    exact ⟨state, rs, hm.1, hm.2.1, Or.inl rfl⟩
  | healthy state rs pc flag =>
    intro hc
    simp only [Mediated, pc] at hm
    simp [hm.2.2.1] at hc
  | answerError ms e pc =>
    intro hc
    obtain ⟨state, rs, hl, hfind, hpc | hpc⟩ := hr hc
    · rw [pc] at hpc
      obtain rfl : e = .upstreamUnhealthy rs.route.upstream := by simpa using hpc
      exact ⟨state, rs, hl, hfind, Or.inr rfl⟩
    · rw [pc] at hpc
      cases hpc
  | toMetrics pc _ | toHealth pc _ | toRoute pc _ _ | load pc | noRoute _ pc _ | found _ _ pc _
  | forward _ _ pc | pluginError _ _ _ _ _ pc _ | pluginBlocks _ _ _ _ pc _
  | pluginPasses _ _ _ _ pc _ | metricsText _ pc | healthText _ pc | forwarded _ _ _ pc
  | answer _ _ _ pc => exact fun hc => absurd hc (busy pc (by simp) (by simp))

/-- The flags request `i` has read. -/
def checkedBy (s : State H) (i : ℕ) : List Bool := record RequestMediation.State.checked s i

theorem checkedBy_step {s t : State H} {e : Event} (hc : Consistent s)
    (hm : ∀ r, s.serving = some r → ServedCalls.AllMediated arrivals r)
    (h : Step arrivals peers hostParses s e t) (i : ℕ) :
    checkedBy t i = checkedBy s i ∨ (checkedBy s i = [] ∧ ∃ state rs,
      loadedBy s i = [state] ∧ findRoute state.routes (arrivals i).req.uri.path = some rs ∧
      checkedBy t i = [s.server.flags rs.healthy]) := by
  rcases record_step (f := RequestMediation.State.checked) (fun _ _ => rfl) (fun _ _ _ => rfl)
    hc h i with hsame | ⟨_, r, r', a, hr, hr', ha⟩
  · exact Or.inl hsame
  · rw [checkedBy, checkedBy, loadedBy, record_serving hr, record_serving hr', record_serving hr]
    apply (check_cases (hm r hr i) ha).imp id
    rintro ⟨hunread, state, rs, hl, hfind, hnew⟩
    obtain ⟨p, hp, hread⟩ := published_of_serving hc hr
    exact ⟨hunread, state, rs, hl, hfind, by rw [hnew, (hread i).2]⟩

section Reads

variable (arrivals : ℕ → Arrival) (peers : ℕ → String) (hostParses : String → Bool)

/-- With step `e` at `s` request `i` reads the flag of the route its path matches first in `p`, the
state it has loaded, and finds `b`. -/
structure Reads (s : State H) (e : Event) (i : ℕ) (p : Publication H) (b : Bool) : Prop where
  unread : checkedBy s i = []
  reads : ∃ t, next arrivals peers hostParses s e = some t ∧ checkedBy t i = [b]
  loaded : p ∈ s.server.log ∧ loadedBy s i = [p.state]
  flag : ∃ rs, FirstMatch p.state.routes (arrivals i).req.uri.path rs ∧ FlagRead s.server p rs b

/-- What decides whether a request is refused as unhealthy: one read, at one step of the run. -/
structure HealthDecided (tr : List (State H × Event)) (u : State H) (i : ℕ) : Prop where
  once : (checkedBy u i).length ≤ 1
  read : ∀ b, checkedBy u i = [b] → ∃ q ∈ tr, ∃ p,
    Reads arrivals peers hostParses q.1 q.2 i p b ∧ loadedBy u i = [p.state]
  refused : ∀ r, u.serving = some r → Refused (arrivals i).req (r.mediation i)

end Reads

theorem reads_of_step {tr : List (State H × Event)} {s t : State H} {e : Event}
    (hs : RequestProvenance.Recorded arrivals peers tr s)
    (hn : next arrivals peers hostParses s e = some t) {i : ℕ} {state : ProxyState.AppState}
    {rs : ProxyState.RouteState} (hunread : checkedBy s i = []) (hl : loadedBy s i = [state])
    (hfind : findRoute state.routes (arrivals i).req.uri.path = some rs)
    (hread : checkedBy t i = [s.server.flags rs.healthy]) :
    ∃ p, p.state = state ∧
      Reads arrivals peers hostParses s e i p (s.server.flags rs.healthy) := by
  cases hr : s.serving with
  | none => simp [loadedBy, record, hr] at hl
  | some r =>
    have hmem : state ∈ (r.mediation i).loaded := by
      rw [loadedBy, record_serving hr] at hl
      simp [hl]
    obtain ⟨p, hp, rfl⟩ := hs.traced.loaded r hr i state hmem
    have hmatch := RequestMediation.findRoute_iff.mp hfind
    have hrs := (RequestProvenance.FirstMatch.route hmatch).1
    exact ⟨p, rfl, hunread, ⟨t, hn, hread⟩, ⟨hp, hl⟩, rs, hmatch,
      flagRead_now hs.consistent.health hp hrs⟩

theorem loadedBy_keeps {s t : State H} {e : Event} (hc : Consistent s)
    (hm : ∀ r, s.serving = some r → ServedCalls.AllMediated arrivals r)
    (h : Step arrivals peers hostParses s e t) {i : ℕ} {state : ProxyState.AppState}
    (hl : loadedBy s i = [state]) : loadedBy t i = [state] := by
  rcases ServedFreshness.loadedBy_step hc hm h i with hkeep | ⟨hnil, _⟩
  · rw [hkeep, hl]
  · rw [hl] at hnil
    cases hnil

theorem refused_run {file : FileVersion} {dirs : String → CertificateCache.CacheDir}
    {instant wall : ℕ} {u : State H} {tr : List (State H × Event)}
    (h : Run (next arrivals peers hostParses) (boot H file dirs instant wall) tr u)
    {r : RequestServing.State} (hr : u.serving = some r) (i : ℕ) :
    Refused (arrivals i).req (r.mediation i) := by
  obtain ⟨p, tr', _, _, hrun⟩ := (composed h).requests r hr
  have hbase : ∀ i, Mediated (arrivals i).req
      ((RequestServing.boot p.state (fun _ => true) u.maxIdlePerHost).mediation i) ∧
      Refused (arrivals i).req
        ((RequestServing.boot p.state (fun _ => true) u.maxIdlePerHost).mediation i) :=
    fun _ => ⟨⟨rfl, rfl, rfl⟩, nofun⟩
  have hboth := hrun.invariant
    (I := fun r => ∀ i, Mediated (arrivals i).req (r.mediation i) ∧
      Refused (arrivals i).req (r.mediation i))
    (fun _ _ _ hs hn => RequestServing.mediation_invariant
      (I := fun i m => Mediated (arrivals i).req m ∧ Refused (arrivals i).req m)
      (fun _ _ _ _ hm hn => ⟨RequestMediation.mediated_step hm.1 hn, refused_step hm.1 hm.2 hn⟩)
      hs (RequestServing.step_of_next _ _ hn)) hbase
  exact (hboth i).2

theorem unhealthy_explained (file : FileVersion) (dirs : String → CertificateCache.CacheDir)
    (instant wall : ℕ) {u : State H} {tr : List (State H × Event)}
    (h : Run (next arrivals peers hostParses) (boot H file dirs instant wall) tr u) (i : ℕ) :
    HealthDecided arrivals peers hostParses tr u i := by
  suffices hread : (checkedBy u i).length ≤ 1 ∧ ∀ b, checkedBy u i = [b] → ∃ q ∈ tr, ∃ p,
      Reads arrivals peers hostParses q.1 q.2 i p b ∧ loadedBy u i = [p.state] from
    ⟨hread.1, hread.2, fun r hr => refused_run h hr i⟩
  induction h with
  | nil => exact ⟨Nat.zero_le 1, fun b hb => by cases hb⟩
  | @snoc tr s e t hr hn ih =>
    have hstep := step_of_next _ _ _ hn
    have hs := RequestProvenance.recorded_run hr
    have hm := fun r (hserving : s.serving = some r) => mediated_run hr hserving
    rcases checkedBy_step hs.consistent hm hstep i with
      hsame | ⟨hunread, state, rs, hl, hfind, hnew⟩
    · rw [hsame]
      refine ⟨ih.1, ?_⟩
      intro b hb
      obtain ⟨q, hq, p, hreads, hl⟩ := ih.2 b hb
      exact ⟨q, List.mem_append_left _ hq, p, hreads, loadedBy_keeps hs.consistent hm hstep hl⟩
    · rw [hnew]
      refine ⟨Nat.le_refl 1, ?_⟩
      intro b hb
      obtain rfl := List.singleton_inj.mp hb
      obtain ⟨p, rfl, hreads⟩ := reads_of_step hs hn hunread hl hfind hnew
      exact ⟨(s, e), by simp, p, hreads, loadedBy_keeps hs.consistent hm hstep hl⟩

def samplePinged : List Event :=
  sampleBegun ++ List.replicate 3 (.server (.ping 0 false)) ++ List.replicate 4 (.serve (.step 0))

theorem unhealthy_explained_pinged : ∃ tr u, Run sampleNext sampleWhole tr u ∧
    checkedBy u 0 = [false] ∧
    HealthDecided (fun _ => sampleArrival) (fun _ => "10.0.0.7") (fun _ => true) tr u 0 := by
  obtain ⟨u, hr, hv⟩ := run_of_view sampleNext sampleWhole samplePinged
    (fun s => checkedBy s 0) [false] rfl
  exact ⟨_, u, hr, hv, unhealthy_explained _ _ _ _ hr 0⟩

end ServedHealth
