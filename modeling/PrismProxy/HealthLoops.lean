import PrismProxy.TransitionRuns
import PrismProxy.ProxyServerSteps
import PrismProxy.RequestMediation

/-! # Whose health is watched

Health loops are spawned once, for the routes of the initial state. Every later `build_state`
allocates flags of its own, which no loop knows. -/
namespace HealthLoops

open TransitionRuns ProxyConfig ProxyState ProxyHealthCheck StatePublication ProxyServer
open RequestMediation (findRoute)

variable {H : Host}

def watched (rs : RouteState) : String × ℕ := (rs.route.upstream, rs.healthy)

def initial (s : State H) : Option (Publication H) := s.log.getLast?

structure Invariant (s : State H) : Prop where
  opening : Opening s
  spawned : ∀ p, initial s = some p → s.loops.map HealthLoop.watches = p.state.routes.map watched
  tracks : ∀ l ∈ s.loops, l.Tracks (s.flags l.healthy)
  distinct : (s.loops.map HealthLoop.healthy).Nodup
  allocated : ∀ l ∈ s.loops, l.healthy < s.nextFlag
  later : ∀ p ∈ s.log.dropLast, ∀ rs ∈ p.state.routes, ∀ l ∈ s.loops, l.healthy ≠ rs.healthy
  untouched : ∀ i, (∀ l ∈ s.loops, l.healthy ≠ i) → s.flags i = true

theorem boot_invariant (H : Host) (file : FileVersion) (dirs : String → CertificateCache.CacheDir)
    (instant wall : ℕ) : Invariant (boot H file dirs instant wall) where
  opening := boot_opening H file dirs instant wall
  spawned := by intro p hp; cases hp
  tracks := by intro l hl; cases hl
  distinct := List.nodup_nil
  allocated := by intro l hl; cases hl
  later := by intro p hp; cases hp
  untouched := fun _ _ => rfl

theorem Invariant.frame {s t : State H} (h : Invariant s) (ho : Opening t) (hl : t.log = s.log)
    (hp : t.loops = s.loops) (hf : t.flags = s.flags) (hn : t.nextFlag = s.nextFlag) :
    Invariant t where
  opening := ho
  spawned := by simpa only [initial, hl, hp] using h.spawned
  tracks := by simpa only [hp, hf] using h.tracks
  distinct := by simpa only [hp] using h.distinct
  allocated := by simpa only [hp, hn] using h.allocated
  later := by simpa only [hl, hp] using h.later
  untouched := by simpa only [hp, hf] using h.untouched

theorem Invariant.store {s t : State H} {p : Publication H} (h : Invariant s) (ho : Opening t)
    (hne : s.log ≠ []) (hflag : p.flag = s.nextFlag) (hl : t.log = (s.store p).log)
    (hp : t.loops = s.loops) (hf : t.flags = (s.store p).flags)
    (hn : t.nextFlag = (s.store p).nextFlag) : Invariant t := by
  have hkeep : ∀ l ∈ s.loops, t.flags l.healthy = s.flags l.healthy := by
    intro l hm
    have hlt := h.allocated l hm
    rw [hf]
    simp only [State.store]
    rw [if_neg (by omega)]
  refine ⟨ho, ?_, ?_, ?_, ?_, ?_, ?_⟩
  · intro q hq
    rw [hp]
    apply h.spawned q
    rw [initial, hl] at hq
    simpa [initial, State.store, List.getLast?_cons, hne, List.getLast?_eq_some_getLast] using hq
  · intro l hm
    rw [hp] at hm
    rw [hkeep l hm]
    exact h.tracks l hm
  · rw [hp]
    exact h.distinct
  · intro l hm
    have hlt := h.allocated l (hp ▸ hm)
    rw [hn]
    simp only [State.store]
    omega
  · intro q hq rs hrs l hm
    rw [hp] at hm
    rw [hl] at hq
    simp only [State.store, List.dropLast_cons_of_ne_nil hne, List.mem_cons] at hq
    rcases hq with rfl | hq
    · have hlt := h.allocated l hm
      have hge := (q.flag_bounds hrs).1
      omega
    · exact h.later q hq rs hrs l hm
  · intro i hi
    rw [hf]
    simp only [State.store]
    by_cases hnew : s.nextFlag ≤ i ∧ i < s.nextFlag + p.config.routes.length
    · rw [if_pos hnew]
    · rw [if_neg hnew]
      exact h.untouched i (hp ▸ hi)

theorem Invariant.publish {s t : State H} {p : Publication H} (h : Invariant s) (ho : Opening t)
    (hnil : s.log = []) (hflag : p.flag = s.nextFlag) (hl : t.log = (s.store p).log)
    (hp : t.loops = spawnLoops p) (hf : t.flags = (s.store p).flags)
    (hn : t.nextFlag = (s.store p).nextFlag) : Invariant t := by
  have hbounds : ∀ l ∈ spawnLoops p,
      s.nextFlag ≤ l.healthy ∧ l.healthy < s.nextFlag + p.config.routes.length := by
    intro l hm
    obtain ⟨rs, hrs, rfl⟩ := List.mem_map.mp hm
    have hb := p.flag_bounds hrs
    simp only [HealthLoop.spawn]
    omega
  have htrue : ∀ l ∈ spawnLoops p, t.flags l.healthy = true := by
    intro l hm
    rw [hf]
    simp only [State.store]
    rw [if_pos (hbounds l hm)]
  refine ⟨ho, ?_, ?_, ?_, ?_, ?_, ?_⟩
  · intro q hq
    have hq : p = q := by simpa [initial, hl, State.store, hnil] using hq
    subst hq
    rw [hp]
    simp [spawnLoops, HealthLoop.watches, watched, HealthLoop.spawn, Function.comp_def]
  · intro l hm
    rw [hp] at hm
    rw [htrue l hm]
    obtain ⟨rs, _, rfl⟩ := List.mem_map.mp hm
    exact HealthLoop.spawn_tracks _ _
  · have hmap : (spawnLoops p).map HealthLoop.healthy = p.state.routes.map RouteState.healthy := by
      simp [spawnLoops, HealthLoop.spawn, Function.comp_def]
    rw [hp, hmap, p.routes.2]
    exact List.nodup_range'
  · intro l hm
    have hb := hbounds l (hp ▸ hm)
    rw [hn]
    simp only [State.store]
    omega
  · intro q hq
    simp [hl, State.store, hnil] at hq
  · intro i _
    rw [hf]
    simp only [State.store]
    split
    · rfl
    · apply h.untouched
      intro l hm
      rw [(h.opening.tasks hnil).2.2] at hm
      cases hm

theorem map_set_same {loops : List HealthLoop} {i : ℕ} {l m : HealthLoop}
    (hl : loops[i]? = some l) {β : Type} (f : HealthLoop → β) (hf : f m = f l) :
    (loops.set i m).map f = loops.map f := by
  obtain ⟨hi, rfl⟩ := List.getElem?_eq_some_iff.mp hl
  rw [List.map_set, hf]
  have hlen : i < (loops.map f).length := by simpa using hi
  have hget : f loops[i] = (loops.map f)[i] := by simp
  rw [hget, List.set_getElem_self]

theorem exists_same_flag {loops loops' : List HealthLoop}
    (h : loops'.map HealthLoop.healthy = loops.map HealthLoop.healthy) {l : HealthLoop}
    (hl : l ∈ loops') : ∃ k ∈ loops, k.healthy = l.healthy := by
  have hflag : l.healthy ∈ loops.map HealthLoop.healthy := by
    rw [← h]
    exact List.mem_map_of_mem hl
  exact List.mem_map.mp hflag

theorem Invariant.ping {s t : State H} {i : ℕ} {ok : Bool} {l : HealthLoop} (h : Invariant s)
    (ho : Opening t) (hi : s.loops[i]? = some l) (hl : t.log = s.log)
    (hp : t.loops = s.loops.set i (l.ping (s.flags l.healthy) ok).1)
    (hf : t.flags = Function.update s.flags l.healthy (l.ping (s.flags l.healthy) ok).2)
    (hn : t.nextFlag = s.nextFlag) : Invariant t := by
  have hmem : l ∈ s.loops := List.mem_of_getElem? hi
  have hids : t.loops.map HealthLoop.healthy = s.loops.map HealthLoop.healthy := by
    rw [hp]
    exact map_set_same hi _ rfl
  refine ⟨ho, ?_, ?_, ?_, ?_, ?_, ?_⟩
  · intro p hq
    rw [initial, hl] at hq
    rw [← h.spawned p hq, hp]
    exact map_set_same hi _ rfl
  · intro m hm
    rw [hp] at hm
    obtain ⟨j, hj⟩ := List.mem_iff_getElem?.mp hm
    by_cases hij : i = j
    · subst hij
      obtain ⟨hlt, _⟩ := List.getElem?_eq_some_iff.mp hi
      rw [List.getElem?_set_self hlt] at hj
      obtain rfl := Option.some.inj hj
      have hown : t.flags l.healthy = (l.ping (s.flags l.healthy) ok).2 := by
        rw [hf, Function.update_self]
      have htr := HealthLoop.ping_tracks ok (h.tracks l hmem)
      rwa [← hown] at htr
    · rw [List.getElem?_set_ne hij] at hj
      have hne : m.healthy ≠ l.healthy := by
        intro heq
        apply hij
        have hgl : (s.loops.map HealthLoop.healthy)[i]? = some l.healthy := by simp [hi]
        have hgm : (s.loops.map HealthLoop.healthy)[j]? = some l.healthy := by simp [hj, heq]
        obtain ⟨hlt, _⟩ := List.getElem?_eq_some_iff.mp hgl
        exact (List.getElem?_inj hlt h.distinct).mp (hgl.trans hgm.symm)
      rw [hf, Function.update_of_ne hne]
      exact h.tracks m (List.mem_of_getElem? hj)
  · rw [hids]
    exact h.distinct
  · intro m hm
    obtain ⟨k, hk, heq⟩ := exists_same_flag hids hm
    rw [hn, ← heq]
    exact h.allocated k hk
  · intro p hq rs hrs m hm
    obtain ⟨k, hk, heq⟩ := exists_same_flag hids hm
    rw [hl] at hq
    rw [← heq]
    exact h.later p hq rs hrs k hk
  · intro a ha
    have hne : a ≠ l.healthy := by
      obtain ⟨m, hm, heq⟩ := exists_same_flag hids.symm hmem
      rw [← heq]
      exact (ha m hm).symm
    rw [hf, Function.update_of_ne hne]
    apply h.untouched
    intro k hk
    obtain ⟨m, hm, heq⟩ := exists_same_flag hids.symm hk
    rw [← heq]
    exact ha m hm

theorem invariant_step {s t : State H} {e : Event} (hs : Invariant s) (h : Step s e t) :
    Invariant t := by
  have ho := opening_step hs.opening h
  cases h with
  | main r eff he =>
    generalize hpc : s.main = pc at he
    have hstart : pc.starting = true → s.log = [] := by
      intro hst
      exact hs.opening.starting (hpc ▸ hst)
    cases mainStep_cases he with
    | complete vr view p _ _ hflag _ => exact hs.publish ho (hstart rfl) hflag rfl rfl rfl rfl
    | recomplete boot vr view p _ _ hflag => exact hs.publish ho (hstart rfl) hflag rfl rfl rfl rfl
    | _ => exact hs.frame ho rfl rfl rfl rfl
  | reload r pc eff hpc he =>
    have hne := hs.opening.of_reload hpc
    cases reloadStep_cases he with
    | store mtime vr view p _ _ hflag => exact hs.store ho hne hflag rfl rfl rfl rfl
    | _ => exact hs.frame ho rfl rfl rfl rfl
  | renewal r pc eff hpc he =>
    have hne := hs.opening.of_renewal hpc
    cases renewalStep_cases he with
    | store rr view p _ _ hflag => exact hs.store ho hne hflag rfl rfl rfl rfl
    | _ => exact hs.frame ho rfl rfl rfl rfl
  | ping i ok l hl => exact hs.ping ho hl rfl rfl rfl rfl
  | _ => exact hs.frame ho rfl rfl rfl rfl

/-- `route` answers that the upstream of the matching route is unhealthy. -/
def AnswersUnhealthy (flags : ℕ → Bool) (state : AppState) (path : String) : Prop :=
  ∃ rs, findRoute state.routes path = some rs ∧ flags rs.healthy = false

/-- A route has a live loop that polls its upstream and writes its flag, and the flag is what
the pings of that loop make it. -/
def Monitored (s : State H) (rs : RouteState) : Prop :=
  ∃ l ∈ s.loops, l.upstream = rs.route.upstream ∧ l.healthy = rs.healthy ∧
    s.flags rs.healthy = (afterPings failThreshold recoverThreshold l.pings).1

/-- What holds of the routes of the initial state, and of those of every state published by a
reload or a renewal. -/
structure InitialMonitored (s : State H) : Prop where
  monitored : ∀ p, initial s = some p → ∀ rs ∈ p.state.routes, Monitored s rs
  unwatched : ∀ p ∈ s.log.dropLast, ∀ rs ∈ p.state.routes,
    (∀ l ∈ s.loops, l.healthy ≠ rs.healthy) ∧ s.flags rs.healthy = true
  neverUnhealthy : ∀ p ∈ s.log.dropLast, ∀ path, ¬ AnswersUnhealthy s.flags p.state path

theorem Invariant.initialMonitored {s : State H} (h : Invariant s) : InitialMonitored s := by
  have hlater : ∀ p ∈ s.log.dropLast, ∀ rs ∈ p.state.routes,
      (∀ l ∈ s.loops, l.healthy ≠ rs.healthy) ∧ s.flags rs.healthy = true := by
    intro p hp rs hrs
    have hno := h.later p hp rs hrs
    exact ⟨hno, h.untouched rs.healthy hno⟩
  refine ⟨?_, hlater, ?_⟩
  · intro p hp rs hrs
    have hm : watched rs ∈ s.loops.map HealthLoop.watches := by
      rw [h.spawned p hp]
      exact List.mem_map_of_mem hrs
    obtain ⟨l, hl, hw⟩ := List.mem_map.mp hm
    obtain ⟨hu, hf⟩ := Prod.mk.inj hw
    have htr := h.tracks l hl
    rw [HealthLoop.Tracks, hf] at htr
    exact ⟨l, hl, hu, hf, congrArg Prod.fst htr⟩
  · rintro p hp path ⟨rs, hfind, hfalse⟩
    have hrs : rs ∈ p.state.routes := List.mem_of_find?_eq_some hfind
    rw [(hlater p hp rs hrs).2] at hfalse
    cases hfalse

/-- Every route of the published state is monitored, and a path is answered as unhealthy exactly
when the pings of the loop that writes its route's flag say so. -/
structure PublishedMonitored (s : State H) : Prop where
  routes : ∀ p, s.published = some p → ∀ rs ∈ p.state.routes, Monitored s rs
  answers : ∀ p, s.published = some p → ∀ path, AnswersUnhealthy s.flags p.state path ↔
    ∃ rs, findRoute p.state.routes path = some rs ∧
      ∃ l ∈ s.loops, l.upstream = rs.route.upstream ∧ l.healthy = rs.healthy ∧
        (afterPings failThreshold recoverThreshold l.pings).1 = false

/-- No reload and no renewal stores a state for a config that has a route. -/
def StoresNoRoutes (s : State H) (e : Event) : Prop :=
  ∀ x ∈ storing s e, x.1 ≠ .main → x.2.config.routes = []

theorem published_routes_nil (p : Publication H) :
    p.state.routes = [] ↔ p.config.routes = [] := by
  rw [← p.routes.1, List.map_eq_nil_iff]

theorem Invariant.not_monitored {s : State H} (h : Invariant s) {p : Publication H}
    (hp : p ∈ s.log.dropLast) {rs : RouteState} (hrs : rs ∈ p.state.routes) :
    ¬ Monitored s rs := by
  rintro ⟨l, hl, _, hflag, _⟩
  exact h.later p hp rs hrs l hl hflag

theorem Invariant.answers_iff {s : State H} (h : Invariant s) {state : AppState}
    (hm : ∀ rs ∈ state.routes, Monitored s rs) (path : String) :
    AnswersUnhealthy s.flags state path ↔ ∃ rs, findRoute state.routes path = some rs ∧
      ∃ l ∈ s.loops, l.upstream = rs.route.upstream ∧ l.healthy = rs.healthy ∧
        (afterPings failThreshold recoverThreshold l.pings).1 = false := by
  constructor
  · rintro ⟨rs, hfind, hfalse⟩
    obtain ⟨l, hl, hu, hflag, hpings⟩ := hm rs (List.mem_of_find?_eq_some hfind)
    exact ⟨rs, hfind, l, hl, hu, hflag, hpings ▸ hfalse⟩
  · rintro ⟨rs, hfind, l, hl, _, hflag, hpings⟩
    have htr := h.tracks l hl
    rw [HealthLoop.Tracks, hflag] at htr
    exact ⟨rs, hfind, (congrArg Prod.fst htr).trans hpings⟩

theorem Invariant.publishedMonitored_iff {s : State H} (h : Invariant s) :
    PublishedMonitored s ↔
      ∀ p later, s.log = p :: later → later ≠ [] → p.config.routes = [] := by
  constructor
  · intro hm p later hlog hlater
    rw [← published_routes_nil, List.eq_nil_iff_forall_not_mem]
    intro rs hrs
    have hmem : p ∈ s.log.dropLast := by simp [hlog, List.dropLast_cons_of_ne_nil hlater]
    exact h.not_monitored hmem hrs (hm.routes p (by simp [State.published, hlog]) rs hrs)
  · intro hnone
    have hroutes : ∀ p, s.published = some p → ∀ rs ∈ p.state.routes, Monitored s rs := by
      intro p hp rs hrs
      obtain ⟨later, hlog⟩ := List.head?_eq_some_iff.mp hp
      by_cases hlater : later = []
      · exact h.initialMonitored.monitored p (by simp [initial, hlog, hlater]) rs hrs
      · rw [(published_routes_nil p).mpr (hnone p later hlog hlater)] at hrs
        cases hrs
    exact ⟨hroutes, fun p hp path => h.answers_iff (hroutes p hp) path⟩

theorem storing_main_iff {s : State H} {e : Event} {w : Writer} {p : Publication H}
    (ho : Opening s) (h : storing s e = some (w, p)) : w = .main ↔ s.log = [] := by
  cases w with
  | main =>
    refine iff_of_true rfl (ho.starting ?_)
    rcases storing_main h with ⟨r, view, hm, _⟩ | ⟨b, r, view, hm, _⟩
    · simp [hm, MainPc.starting]
    · simp [hm, MainPc.starting]
  | reload =>
    obtain ⟨_, _, _, _, _, hpc, _⟩ := storing_reload h
    exact iff_of_false (by simp) (ho.of_reload hpc)
  | renewal =>
    obtain ⟨_, _, _, _, hpc, _⟩ := storing_renewal h
    exact iff_of_false (by simp) (ho.of_renewal hpc)

theorem publishedMonitored_step {s t : State H} {e : Event} (hs : Invariant s)
    (hm : PublishedMonitored s) (h : next s e = some t) :
    PublishedMonitored t ↔ StoresNoRoutes s e := by
  have hstep := step_of_next h
  have hlog := step_log hstep
  rw [(invariant_step hs hstep).publishedMonitored_iff]
  cases hst : storing s e with
  | none =>
    have hsame : t.log = s.log := by simpa [hst] using hlog
    rw [hsame]
    refine iff_of_true (hs.publishedMonitored_iff.mp hm) ?_
    intro x hx
    simp [hst] at hx
  | some wp =>
    obtain ⟨w, p⟩ := wp
    have hcons : t.log = p :: s.log := by simpa [hst] using hlog
    have hmain := storing_main_iff hs.opening hst
    simp only [hcons, List.cons.injEq, StoresNoRoutes, hst, Option.mem_some_iff]
    constructor
    · rintro hnone x rfl hw
      exact hnone p s.log ⟨rfl, rfl⟩ (fun hnil => hw (hmain.mpr hnil))
    · rintro hnone q later ⟨rfl, rfl⟩ hlater
      exact hnone (w, p) rfl (fun hw => hlater (hmain.mp hw))

/-- From start-up on, in every state a run visits the routes of the published state are
monitored, exactly when no reload and no renewal of the run stores a state that has a route.
The routes of the initial state are monitored all along; those stored later never are. -/
theorem monitored_iff (file : FileVersion) (dirs : String → CertificateCache.CacheDir)
    (instant wall : ℕ) {tr : List (State H × Event)} {u : State H}
    (h : Run next (boot H file dirs instant wall) tr u) :
    (Always PublishedMonitored tr u ↔ Obeys StoresNoRoutes tr) ∧ InitialMonitored u := by
  have inv : ∀ (s : State H) e t, Invariant s → next s e = some t → Invariant t :=
    fun _ _ _ hs hn => invariant_step hs (step_of_next hn)
  have hboot := boot_invariant H file dirs instant wall
  have start : PublishedMonitored (boot H file dirs instant wall) := by
    constructor
    · intro p hp
      cases hp
    · intro p hp
      cases hp
  exact ⟨h.always_iff inv (fun _ _ _ hs hm hn => publishedMonitored_step hs hm hn) hboot start,
    (h.invariant inv hboot).initialMonitored⟩

theorem monitored_iff_started :
    ∃ tr u, Run next sampleBoot tr u ∧ u.loops.map HealthLoop.watches = [("127.0.0.1:3000", 0)] ∧
      (Always PublishedMonitored tr u ↔ Obeys StoresNoRoutes tr) ∧ InitialMonitored u := by
  obtain ⟨u, hr, hl⟩ := run_of_view next sampleBoot sampleStart
    (fun s => s.loops.map HealthLoop.watches) [("127.0.0.1:3000", 0)] rfl
  exact ⟨_, u, hr, hl, monitored_iff _ _ _ _ hr⟩

/-- The config file is written again, unchanged: after the reload the published route has a flag
no loop writes. -/
theorem reloaded_unmonitored : ¬ ∀ (H : Host) (file : FileVersion)
    (dirs : String → CertificateCache.CacheDir) (instant wall : ℕ) (tr : List (State H × Event))
    (u : State H), Run next (boot H file dirs instant wall) tr u →
      ∀ p, u.published = some p → ∀ rs ∈ p.state.routes, Monitored u rs := by
  intro hall
  obtain ⟨u, hr, hv⟩ := run_of_view next sampleBoot
    (sampleStart ++ [.writeConfig ⟨2, "127.0.0.1:3000"⟩] ++ sampleReload)
    (fun s => (s.published.map fun p => p.state.routes.map watched,
      s.loops.map HealthLoop.watches))
    (some [("127.0.0.1:3000", 1)], [("127.0.0.1:3000", 0)]) rfl
  obtain ⟨hpub, hloops⟩ := Prod.mk.inj hv
  obtain ⟨p, hp, hroutes⟩ := Option.map_eq_some_iff.mp hpub
  obtain ⟨rs, hrs, hw⟩ : ∃ rs ∈ p.state.routes, watched rs = ("127.0.0.1:3000", 1) := by
    have hm : ("127.0.0.1:3000", 1) ∈ p.state.routes.map watched := by simp [hroutes]
    exact List.mem_map.mp hm
  obtain ⟨l, hl, hu, hf, _⟩ := hall _ _ _ _ _ _ u hr p hp rs hrs
  have hm : l.watches ∈ u.loops.map HealthLoop.watches := List.mem_map_of_mem hl
  have heq : l.watches = watched rs := by simp [HealthLoop.watches, watched, hu, hf]
  rw [heq, hw, hloops] at hm
  exact absurd hm (by decide)

end HealthLoops
