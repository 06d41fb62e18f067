import PrismProxy.TransitionRuns
import PrismProxy.HttpMessage
import PrismProxy.ProxyState

/-! # From a request to the upstream

One request through `handle` and `route`, step by step, while other tasks store states into
the `ArcSwap` and health loops write flags. The request loads the published state once; all
it decides, it decides on that snapshot. -/
namespace RequestMediation

open TransitionRuns ProxyConfig ProxyPlugin ProxyState HttpMessage

def cargoPkgVersion : String := "0.1.0"

def healthResponse (uptime : String) (routes : ℕ) (tls : Bool) : Response :=
  textResponse 200 "application/json"
    ("\x7b\"status\":\"ok\",\"version\":\"" ++ cargoPkgVersion ++ "\",\"uptime_secs\":" ++ uptime ++
      ",\"routes\":" ++ toString routes ++ ",\"tls\":" ++ toString tls ++ "\x7d")

def blockedResponse : Response := textResponse 403 "text/plain" "403 Forbidden\n"

def errorResponse (e : ProxyError) : Response :=
  match e with
  | .noRoute _ => textResponse 404 "text/plain" e.display
  | .upstreamConnect _ => textResponse 502 "text/plain" e.display
  | .timeout _ => textResponse 504 "text/plain" e.display
  | .upstreamUnhealthy _ => textResponse 503 "text/plain" e.display
  | _ => textResponse 500 "text/plain" "internal error"

/-- The `find` of `route`. -/
def findRoute (routes : List RouteState) (path : String) : Option RouteState :=
  routes.find? fun rs => startsWith path rs.route.pathPrefix

/-- Where the request stands. From `gate` on it holds the state it has loaded. -/
inductive Pc where
  | start
  | metrics
  | health
  | load
  | find (state : AppState)
  | gate (state : AppState) (rs : RouteState)
  | plugins (state : AppState) (rs : RouteState) (todo : List Plugin)
  | forwarding (upstream : String) (timeoutMs : ℕ)
  | routed (result : Except ProxyError (Response × Bool))
  | answered (response : Response)

/-- `loaded`, `checked` and `contacted` record the loads of the state, the reads of the health
flag and the calls of `proxy::forward` made for this request. -/
structure State where
  current : AppState
  flags : ℕ → Bool
  pc : Pc
  loaded : List AppState
  checked : List Bool
  contacted : List (String × ℕ)

/-- A step of the request, with what a clock or the called function gives it, or a step of the
other tasks. -/
inductive Event where
  | step
  | text (s : String)
  | elapsed (ms : ℕ)
  | forwarded (result : Except ProxyError Response)
  | store (state : AppState)
  | setFlag (i : ℕ) (healthy : Bool)

/-- One turn of the plugin loop, or the call of `proxy::forward` after it. A request whose guest
never returns takes no further step. -/
def pluginStep (req : Request) (s : State) (state : AppState) (rs : RouteState) :
    List Plugin → Option State
  | [] =>
    some { s with
      pc := .forwarding rs.route.upstream state.timeoutMs
      contacted := s.contacted ++ [(rs.route.upstream, state.timeoutMs)] }
  | plugin :: todo =>
    match runPlugin plugin req.method req.uri.path with
    | none => none
    | some (.error e) => some { s with pc := .routed (.error e) }
    | some (.ok true) => some { s with pc := .routed (.ok (blockedResponse, true)) }
    | some (.ok false) => some { s with pc := .plugins state rs todo }

def next (req : Request) (s : State) : Event → Option State
  | .store state => some { s with current := state }
  | .setFlag i healthy => some { s with flags := Function.update s.flags i healthy }
  | .step =>
    match s.pc with
    | .start =>
      some { s with
        pc := if req.uri.path = "/metrics" then .metrics
          else if req.uri.path = "/health" then .health else .load }
    | .load => some { s with pc := .find s.current, loaded := s.loaded ++ [s.current] }
    | .find state =>
      match findRoute state.routes req.uri.path with
      | none => some { s with pc := .routed (.error (.noRoute req.uri.path)) }
      | some rs => some { s with pc := .gate state rs }
    | .gate state rs =>
      some { s with
        checked := s.checked ++ [s.flags rs.healthy]
        pc := if s.flags rs.healthy then .plugins state rs rs.runtime.plugins
          else .routed (.error (.upstreamUnhealthy rs.route.upstream)) }
    | .plugins state rs todo => pluginStep req s state rs todo
    | _ => none
  | .text body =>
    match s.pc with
    | .metrics =>
      some { s with pc := .answered (textResponse 200 "text/plain; version=0.0.4" body) }
    | .health =>
      some { s with
        pc := .routed (.ok
          (healthResponse body s.current.routes.length s.current.tls.isSome, false))
        loaded := s.loaded ++ [s.current] }
    | _ => none
  | .forwarded result =>
    match s.pc with
    | .forwarding _ _ => some { s with pc := .routed (result.map fun resp => (resp, false)) }
    | _ => none
  | .elapsed ms =>
    match s.pc with
    | .routed (.ok (resp, _)) =>
      some { s with
        pc := .answered
          { resp with headers := resp.headers.insert "x-response-time" s!"{ms}ms" } }
    | .routed (.error e) => some { s with pc := .answered (errorResponse e) }
    | _ => none

def start (current : AppState) (flags : ℕ → Bool) : State := ⟨current, flags, .start, [], [], []⟩

inductive RequestStep (req : Request) (s : State) : Event → State → Prop where
  | store (state : AppState) : RequestStep req s (.store state) { s with current := state }
  | setFlag (i : ℕ) (healthy : Bool) :
      RequestStep req s (.setFlag i healthy) { s with flags := Function.update s.flags i healthy }
  | toMetrics (pc : s.pc = .start) (path : req.uri.path = "/metrics") :
      RequestStep req s .step { s with pc := .metrics }
  | toHealth (pc : s.pc = .start) (path : req.uri.path = "/health") :
      RequestStep req s .step { s with pc := .health }
  | toRoute (pc : s.pc = .start) (notMetrics : req.uri.path ≠ "/metrics")
      (notHealth : req.uri.path ≠ "/health") : RequestStep req s .step { s with pc := .load }
  | load (pc : s.pc = .load) :
      RequestStep req s .step { s with pc := .find s.current, loaded := s.loaded ++ [s.current] }
  | noRoute (state : AppState) (pc : s.pc = .find state)
      (missing : findRoute state.routes req.uri.path = none) :
      RequestStep req s .step { s with pc := .routed (.error (.noRoute req.uri.path)) }
  | found (state : AppState) (rs : RouteState) (pc : s.pc = .find state)
      (found : findRoute state.routes req.uri.path = some rs) :
      RequestStep req s .step { s with pc := .gate state rs }
  | healthy (state : AppState) (rs : RouteState) (pc : s.pc = .gate state rs)
      (flag : s.flags rs.healthy = true) :
      RequestStep req s .step
        { s with checked := s.checked ++ [true], pc := .plugins state rs rs.runtime.plugins }
  | unhealthy (state : AppState) (rs : RouteState) (pc : s.pc = .gate state rs)
      (flag : s.flags rs.healthy = false) :
      RequestStep req s .step
        { s with
          checked := s.checked ++ [false]
          pc := .routed (.error (.upstreamUnhealthy rs.route.upstream)) }
  | forward (state : AppState) (rs : RouteState) (pc : s.pc = .plugins state rs []) :
      RequestStep req s .step
        { s with
          pc := .forwarding rs.route.upstream state.timeoutMs
          contacted := s.contacted ++ [(rs.route.upstream, state.timeoutMs)] }
  | pluginError (state : AppState) (rs : RouteState) (plugin : Plugin) (todo : List Plugin)
      (e : ProxyError) (pc : s.pc = .plugins state rs (plugin :: todo))
      (run : runPlugin plugin req.method req.uri.path = some (.error e)) :
      RequestStep req s .step { s with pc := .routed (.error e) }
  | pluginBlocks (state : AppState) (rs : RouteState) (plugin : Plugin) (todo : List Plugin)
      (pc : s.pc = .plugins state rs (plugin :: todo))
      (run : runPlugin plugin req.method req.uri.path = some (.ok true)) :
      RequestStep req s .step { s with pc := .routed (.ok (blockedResponse, true)) }
  | pluginPasses (state : AppState) (rs : RouteState) (plugin : Plugin) (todo : List Plugin)
      (pc : s.pc = .plugins state rs (plugin :: todo))
      (run : runPlugin plugin req.method req.uri.path = some (.ok false)) :
      RequestStep req s .step { s with pc := .plugins state rs todo }
  | metricsText (body : String) (pc : s.pc = .metrics) :
      RequestStep req s (.text body)
        { s with pc := .answered (textResponse 200 "text/plain; version=0.0.4" body) }
  | healthText (body : String) (pc : s.pc = .health) :
      RequestStep req s (.text body)
        { s with
          pc := .routed (.ok
            (healthResponse body s.current.routes.length s.current.tls.isSome, false))
          loaded := s.loaded ++ [s.current] }
  | forwarded (upstream : String) (timeoutMs : ℕ) (result : Except ProxyError Response)
      (pc : s.pc = .forwarding upstream timeoutMs) :
      RequestStep req s (.forwarded result)
        { s with pc := .routed (result.map fun resp => (resp, false)) }
  | answer (ms : ℕ) (resp : Response) (blocked : Bool) (pc : s.pc = .routed (.ok (resp, blocked))) :
      RequestStep req s (.elapsed ms)
        { s with
          pc := .answered
            { resp with headers := resp.headers.insert "x-response-time" s!"{ms}ms" } }
  | answerError (ms : ℕ) (e : ProxyError) (pc : s.pc = .routed (.error e)) :
      RequestStep req s (.elapsed ms) { s with pc := .answered (errorResponse e) }

theorem pluginStep_cases {req : Request} {s t : State} {state : AppState} {rs : RouteState}
    {todo : List Plugin} (hp : s.pc = .plugins state rs todo)
    (h : pluginStep req s state rs todo = some t) : RequestStep req s .step t := by
  cases todo with
  | nil => cases h; exact .forward state rs hp
  | cons plugin todo =>
    simp only [pluginStep] at h
    split at h
    · cases h
    · rename_i e hrun
      cases h
      exact .pluginError state rs plugin todo e hp hrun
    · rename_i hrun
      cases h
      exact .pluginBlocks state rs plugin todo hp hrun
    · rename_i hrun
      cases h
      exact .pluginPasses state rs plugin todo hp hrun

theorem next_cases {req : Request} {s t : State} {e : Event} (h : next req s e = some t) :
    RequestStep req s e t := by
  cases e with
  | store state => cases h; exact .store state
  | setFlag i healthy => cases h; exact .setFlag i healthy
  | text body =>
    cases hp : s.pc <;> simp only [next, hp, reduceCtorEq] at h <;> cases h
    · exact .metricsText body hp
    · exact .healthText body hp
  | forwarded result =>
    cases hp : s.pc <;> simp only [next, hp, reduceCtorEq] at h
    cases h
    exact .forwarded _ _ result hp
  | elapsed ms =>
    cases hp : s.pc <;> simp only [next, hp, reduceCtorEq] at h
    rename_i result
    cases result with
    | error e => cases h; exact .answerError ms e hp
    | ok answer => cases h; exact .answer ms answer.1 answer.2 hp
  | step =>
    cases hp : s.pc <;> simp only [next, hp, reduceCtorEq] at h
    case start =>
      cases h
      split
      · rename_i hmetrics
        exact .toMetrics hp hmetrics
      · rename_i hmetrics
        split
        · rename_i hhealth
          exact .toHealth hp hhealth
        · rename_i hhealth
          exact .toRoute hp hmetrics hhealth
    case load => cases h; exact .load hp
    case find state =>
      split at h
      · rename_i hf
        cases h
        exact .noRoute state hp hf
      · rename_i rs hf
        cases h
        exact .found state rs hp hf
    case gate state rs =>
      cases h
      cases hh : s.flags rs.healthy with
      | true => exact .healthy state rs hp hh
      | false => exact .unhealthy state rs hp hh
    case plugins state rs todo => exact pluginStep_cases hp h

/-- The first route of the list whose prefix is a prefix of the path. -/
def FirstMatch (routes : List RouteState) (path : String) (rs : RouteState) : Prop :=
  ∃ earlier later, routes = earlier ++ rs :: later ∧
    rs.route.pathPrefix.toList <+: path.toList ∧
    ∀ r ∈ earlier, ¬ r.route.pathPrefix.toList <+: path.toList

theorem findRoute_iff {routes : List RouteState} {path : String} {rs : RouteState} :
    findRoute routes path = some rs ↔ FirstMatch routes path rs := by
  have hno : ∀ r : RouteState, startsWith path r.route.pathPrefix = false ↔
      ¬ r.route.pathPrefix.toList <+: path.toList := by
    intro r
    rw [← startsWith_iff, Bool.not_eq_true]
  simp only [findRoute, List.find?_eq_some_iff_append, FirstMatch, startsWith_iff,
    Bool.not_eq_true', hno]
  constructor
  · rintro ⟨hp, earlier, later, heq, hall⟩
    exact ⟨earlier, later, heq, hp, hall⟩
  · rintro ⟨earlier, later, heq, hp, hall⟩
    exact ⟨hp, earlier, later, heq, hall⟩

/-- In the one state loaded for the request the first matching route was healthy at the check
and every plugin of its chain ran without error and returned 0 on this method and path. -/
def Admitted (req : Request) (s : State) (upstream : String) (timeoutMs : ℕ) : Prop :=
  ∃ state rs, s.loaded = [state] ∧ FirstMatch state.routes req.uri.path rs ∧
    s.checked = [true] ∧
    (∀ p ∈ rs.runtime.plugins, runPlugin p req.method req.uri.path = some (.ok false)) ∧
    upstream = rs.route.upstream ∧ timeoutMs = state.timeoutMs

def Finished (s : State) : Prop := ∃ response, s.pc = .answered response

theorem Admitted.congr {req : Request} {s t : State} (hl : t.loaded = s.loaded)
    (hc : t.checked = s.checked) (upstream : String) (timeoutMs : ℕ) :
    Admitted req t upstream timeoutMs ↔ Admitted req s upstream timeoutMs := by
  simp only [Admitted, hl, hc]

/-- With the loaded state and its first match known, admission is the health check and the
verdict of the chain. -/
theorem admitted_iff {req : Request} {s : State} {state : AppState} {rs : RouteState}
    (hl : s.loaded = [state]) (hf : findRoute state.routes req.uri.path = some rs)
    (upstream : String) (timeoutMs : ℕ) :
    Admitted req s upstream timeoutMs ↔ s.checked = [true] ∧
      rs.runtime.runOnRequest req.method req.uri.path = some (.ok false) ∧
      upstream = rs.route.upstream ∧ timeoutMs = state.timeoutMs := by
  simp only [PluginRuntime.runOnRequest, runPlugins_pass_iff]
  constructor
  · rintro ⟨state', rs', hl', hm, hc, hp, hu, ht⟩
    obtain rfl := List.singleton_inj.mp (hl.symm.trans hl')
    obtain rfl := Option.some.inj (hf.symm.trans (findRoute_iff.mpr hm))
    exact ⟨hc, hp, hu, ht⟩
  · rintro ⟨hc, hp, hu, ht⟩
    exact ⟨state, rs, hl, findRoute_iff.mp hf, hc, hp, hu, ht⟩

theorem admitted_unique {req : Request} {s : State} {up up' : String} {t t' : ℕ}
    (h : Admitted req s up t) (h' : Admitted req s up' t') : up = up' ∧ t = t' := by
  obtain ⟨state, rs, hl, hm, _, _, hu, ht⟩ := h
  obtain ⟨_, _, hu', ht'⟩ := (admitted_iff hl (findRoute_iff.mpr hm) up' t').mp h'
  exact ⟨hu.trans hu'.symm, ht.trans ht'.symm⟩

/-- The upstream has been contacted once, as admitted, or not at all and nothing was. -/
def Decided (req : Request) (s : State) : Prop :=
  (s.contacted = [] ∧ ∀ upstream timeoutMs, ¬ Admitted req s upstream timeoutMs) ∨
  ∃ upstream timeoutMs, s.contacted = [(upstream, timeoutMs)] ∧
    Admitted req s upstream timeoutMs

def Mediated (req : Request) (s : State) : Prop :=
  match s.pc with
  | .start | .metrics | .health | .load => s.loaded = [] ∧ s.checked = [] ∧ s.contacted = []
  | .find state => s.loaded = [state] ∧ s.checked = [] ∧ s.contacted = []
  | .gate state rs =>
    s.loaded = [state] ∧ findRoute state.routes req.uri.path = some rs ∧ s.checked = [] ∧
    s.contacted = []
  | .plugins state rs todo =>
    s.loaded = [state] ∧ findRoute state.routes req.uri.path = some rs ∧ s.checked = [true] ∧
    s.contacted = [] ∧
    rs.runtime.runOnRequest req.method req.uri.path = runPlugins todo req.method req.uri.path
  | .forwarding upstream timeoutMs =>
    s.contacted = [(upstream, timeoutMs)] ∧ Admitted req s upstream timeoutMs
  | .routed _ | .answered _ => s.loaded.length ≤ 1 ∧ Decided req s

theorem not_admitted_of_checked {req : Request} {s : State} (hc : s.checked ≠ [true])
    (upstream : String) (timeoutMs : ℕ) : ¬ Admitted req s upstream timeoutMs := by
  rintro ⟨_, _, _, _, hk, _⟩
  exact hc hk

theorem Mediated.frame {req : Request} {s t : State} (h : Mediated req s) (hp : t.pc = s.pc)
    (hl : t.loaded = s.loaded) (hc : t.checked = s.checked) (hf : t.contacted = s.contacted) :
    Mediated req t := by
  unfold Mediated at h ⊢
  simp only [hp, hl, hc, hf, Decided, Admitted.congr hl hc] at h ⊢
  exact h

theorem decided_refused {req : Request} {s : State} {state : AppState} {rs : RouteState}
    (hl : s.loaded = [state]) (hf : findRoute state.routes req.uri.path = some rs)
    (hn : s.contacted = [])
    (hno : rs.runtime.runOnRequest req.method req.uri.path ≠ some (.ok false)) :
    s.loaded.length ≤ 1 ∧ Decided req s := by
  refine ⟨by simp [hl], Or.inl ⟨hn, ?_⟩⟩
  intro upstream timeoutMs ha
  exact hno ((admitted_iff hl hf upstream timeoutMs).mp ha).2.1

theorem decided_unchecked {req : Request} {s : State} (hl : s.loaded.length ≤ 1)
    (hc : s.checked ≠ [true]) (hn : s.contacted = []) : s.loaded.length ≤ 1 ∧ Decided req s :=
  ⟨hl, Or.inl ⟨hn, not_admitted_of_checked hc⟩⟩

theorem mediated_step {req : Request} {s t : State} {e : Event} (hs : Mediated req s)
    (h : next req s e = some t) : Mediated req t := by
  cases next_cases h with
  | store state => exact hs.frame rfl rfl rfl rfl
  | setFlag i healthy => exact hs.frame rfl rfl rfl rfl
  | toMetrics pc _ | toHealth pc _ | toRoute pc _ _ =>
    simp only [Mediated, pc] at hs
    exact hs
  | load pc =>
    simp only [Mediated, pc] at hs
    exact ⟨by simp [hs.1], hs.2⟩
  | noRoute state pc _ =>
    simp only [Mediated, pc] at hs
    obtain ⟨hl, hc, hn⟩ := hs
    exact decided_unchecked (s := s) (by simp [hl]) (by simp [hc]) hn
  | found state rs pc hf =>
    simp only [Mediated, pc] at hs
    obtain ⟨hl, hc, hn⟩ := hs
    exact ⟨hl, hf, hc, hn⟩
  | healthy state rs pc _ =>
    simp only [Mediated, pc] at hs
    obtain ⟨hl, hf, hc, hn⟩ := hs
    exact ⟨hl, hf, by simp [hc], hn, rfl⟩
  | unhealthy state rs pc _ =>
    simp only [Mediated, pc] at hs
    obtain ⟨hl, _, hc, hn⟩ := hs
    exact decided_unchecked (by simp [hl]) (by simp [hc]) hn
  | forward state rs pc =>
    simp only [Mediated, pc] at hs
    obtain ⟨hl, hf, hc, hn, hrest⟩ := hs
    -- the chain is through: this is the call of `forward`
    exact ⟨by simp [hn], (admitted_iff hl hf _ _).mpr ⟨hc, hrest, rfl, rfl⟩⟩
  | pluginError state rs plugin todo e pc run =>
    simp only [Mediated, pc] at hs
    obtain ⟨hl, hf, _, hn, hrest⟩ := hs
    exact decided_refused (s := s) hl hf hn (by simp [hrest, runPlugins, run])
  | pluginBlocks state rs plugin todo pc run =>
    simp only [Mediated, pc] at hs
    obtain ⟨hl, hf, _, hn, hrest⟩ := hs
    exact decided_refused (s := s) hl hf hn (by simp [hrest, runPlugins, run])
  | pluginPasses state rs plugin todo pc run =>
    simp only [Mediated, pc] at hs
    obtain ⟨hl, hf, hc, hn, hrest⟩ := hs
    exact ⟨hl, hf, hc, hn, by simp [hrest, runPlugins, run]⟩
  | metricsText body pc =>
    simp only [Mediated, pc] at hs
    obtain ⟨hl, hc, hn⟩ := hs
    exact decided_unchecked (s := s) (by simp [hl]) (by simp [hc]) hn
  | healthText body pc =>
    simp only [Mediated, pc] at hs
    obtain ⟨hl, hc, hn⟩ := hs
    exact decided_unchecked (by simp [hl]) (by simp [hc]) hn
  | forwarded upstream timeoutMs result pc =>
    simp only [Mediated, pc] at hs
    obtain ⟨hc, state, rs, hl, hadmitted⟩ := hs
    refine ⟨by simp [hl], Or.inr ⟨upstream, timeoutMs, hc, state, rs, hl, hadmitted⟩⟩
  | answer ms resp blocked pc =>
    simp only [Mediated, pc] at hs
    exact hs
  | answerError ms e pc =>
    simp only [Mediated, pc] at hs
    exact hs

/-- The state is loaded at most once and `forward` called at most once, only for an admitted
request and with its route's upstream and that state's timeout; and a finished request that
was admitted was forwarded. -/
structure CompleteMediation (req : Request) (s : State) : Prop where
  loaded : s.loaded.length ≤ 1
  contacted : s.contacted.length ≤ 1
  onlyAdmitted : ∀ upstream timeoutMs, (upstream, timeoutMs) ∈ s.contacted →
    Admitted req s upstream timeoutMs
  everyAdmitted : Finished s → ∀ upstream timeoutMs, Admitted req s upstream timeoutMs →
    (upstream, timeoutMs) ∈ s.contacted

theorem Decided.complete {req : Request} {s : State} (hl : s.loaded.length ≤ 1)
    (h : Decided req s) : CompleteMediation req s := by
  rcases h with ⟨hn, hno⟩ | ⟨upstream, timeoutMs, hn, ha⟩
  · exact ⟨hl, by simp [hn], by simp [hn], fun _ up t hadm => absurd hadm (hno up t)⟩
  · refine ⟨hl, by simp [hn], by simpa [hn] using ha, ?_⟩
    intro _ up t hadm
    obtain ⟨hup, ht⟩ := admitted_unique hadm ha
    simp [hn, hup, ht]

theorem complete_of_unfinished {req : Request} {s : State} (hl : s.loaded.length ≤ 1)
    (hn : s.contacted = []) (hf : ¬ Finished s) : CompleteMediation req s :=
  ⟨hl, by simp [hn], by simp [hn], fun hfin => absurd hfin hf⟩

theorem Mediated.complete {req : Request} {s : State} (h : Mediated req s) :
    CompleteMediation req s := by
  have unfinished : (∀ response, s.pc ≠ .answered response) → ¬ Finished s := by
    rintro hne ⟨response, hp⟩
    exact hne response hp
  unfold Mediated at h
  cases hp : s.pc <;> simp only [hp] at h
  case forwarding upstream timeoutMs =>
    obtain ⟨state, _, hl, _⟩ := h.2
    exact Decided.complete (by simp [hl]) (Or.inr ⟨upstream, timeoutMs, h⟩)
  case routed => exact h.2.complete h.1
  case answered => exact h.2.complete h.1
  case gate => exact complete_of_unfinished (by simp [h.1]) h.2.2.2 (unfinished (by simp [hp]))
  case plugins => exact complete_of_unfinished (by simp [h.1]) h.2.2.2.1 (unfinished (by simp [hp]))
  all_goals exact complete_of_unfinished (by simp [h.1]) h.2.2 (unfinished (by simp [hp]))

def sampleState (upstream : String) : AppState :=
  ⟨5000, [⟨⟨"/api", upstream, []⟩, ⟨[]⟩, 0⟩], none⟩

end RequestMediation
