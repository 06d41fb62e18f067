import PrismProxy.ProxyPlugin

/-! # Application state and how it is built

`buildState` is a function of what its file-system calls return: a `BuildView` holds those
answers, so every state of the disk, and every change to it between two calls, is a view.
The PEM reader and the key check of `rustls` are parameters. -/
namespace ProxyState

open ProxyConfig ProxyPlugin

abbrev Der := List UInt8

/-- The `rustls` and `rustls_pemfile` calls of `build_tls_state`. -/
structure Rustls where
  certs : String → Except String (List Der)
  privateKey : String → Except String (Option Der)
  withSingleCert : List Der → Der → Except String Unit

structure TlsAcceptor where
  certs : List Der
  key : Der
  alpnProtocols : List String
  deriving DecidableEq

structure TlsState where
  acceptor : TlsAcceptor
  domains : List String
  deriving DecidableEq

def buildTlsState (R : Rustls) (tlsConfig : TlsConfig) (certPem keyPem : String) :
    Except ProxyError TlsState :=
  match R.certs certPem with
  | .error e => .error (.tls s!"parse cert chain: {e}")
  | .ok certs =>
    if certs.isEmpty then .error (.tls "no certificates found in PEM")
    else
      match R.privateKey keyPem with
      | .error e => .error (.tls s!"parse private key: {e}")
      | .ok none => .error (.tls "no private key found in PEM")
      | .ok (some key) =>
        match R.withSingleCert certs key with
        | .error e => .error (.tls s!"build server config: {e}")
        | .ok () => .ok ⟨⟨certs, key, ["h2", "http/1.1"]⟩, tlsConfig.domains⟩

/-- `healthy` is the identity of the route's shared flag. -/
structure RouteState where
  route : RouteConfig
  runtime : PluginRuntime
  healthy : ℕ

structure AppState where
  timeoutMs : ℕ
  routes : List RouteState
  tls : Option TlsState

/-- The answers of the file-system calls of one `build_state`. -/
structure BuildView where
  load : String → Except String Module
  certExists : Bool
  keyExists : Bool
  readCert : Except String String
  readKey : Except String String

def loadPlugins (load : String → Except String Module) :
    PluginRuntime → List String → Except ProxyError PluginRuntime
  | runtime, [] => .ok runtime
  | runtime, path :: paths =>
    match runtime.load load path with
    | .ok runtime => loadPlugins load runtime paths
    | .error e => .error e

/-- The loop over the routes. Flags are allocated from `flag` on, one for each route. -/
def buildRoutes (load : String → Except String Module) :
    ℕ → List RouteConfig → Except ProxyError (List RouteState)
  | _, [] => .ok []
  | flag, route :: routes =>
    match PluginRuntime.new with
    | .error e => .error e
    | .ok runtime =>
      match loadPlugins load runtime route.plugins with
      | .error e => .error e
      | .ok runtime =>
        match buildRoutes load (flag + 1) routes with
        | .error e => .error e
        | .ok rest => .ok (⟨route, runtime, flag⟩ :: rest)

def buildTls (R : Rustls) (view : BuildView) : Option TlsConfig →
    Except ProxyError (Option TlsState)
  | none => .ok none
  | some tlsConfig =>
    if view.certExists && view.keyExists then
      match view.readCert with
      | .error e => .error (.tls s!"read cert.pem: {e}")
      | .ok certPem =>
        match view.readKey with
        | .error e => .error (.tls s!"read key.pem: {e}")
        | .ok keyPem => (buildTlsState R tlsConfig certPem keyPem).map some
    else .ok none

def buildState (R : Rustls) (view : BuildView) (flag : ℕ) (config : Config) :
    Except ProxyError AppState :=
  match buildRoutes view.load flag config.routes with
  | .error e => .error e
  | .ok routes =>
    match buildTls R view config.tls with
    | .error e => .error e
    | .ok tls => .ok ⟨config.server.timeoutMs, routes, tls⟩

theorem buildRoutes_ok {load : String → Except String Module} {flag : ℕ}
    {routes : List RouteConfig} {out : List RouteState}
    (h : buildRoutes load flag routes = .ok out) :
    out.map RouteState.route = routes ∧
    out.map RouteState.healthy = List.range' flag routes.length := by
  induction routes generalizing flag out with
  | nil => obtain rfl := Except.ok.inj h; simp
  | cons route routes ih =>
    simp only [buildRoutes, PluginRuntime.new] at h
    cases hp : loadPlugins load ⟨[]⟩ route.plugins with
    | error e => simp [hp] at h
    | ok runtime =>
      cases hr : buildRoutes load (flag + 1) routes with
      | error e => simp [hp, hr] at h
      | ok rest =>
        obtain rfl : ⟨route, runtime, flag⟩ :: rest = out := by simpa [hp, hr] using h
        obtain ⟨hroutes, hflags⟩ := ih hr
        simp [hroutes, hflags, List.range'_succ]

/-- TLS is present exactly when it is configured and both files were seen; it is then built
from what was read. -/
theorem buildTls_ok {R : Rustls} {view : BuildView} {tls : Option TlsConfig}
    {out : Option TlsState} (h : buildTls R view tls = .ok out) :
    (out = none ∧ (tls = none ∨ (view.certExists && view.keyExists) = false)) ∨
    ∃ tlsConfig t certPem keyPem, tls = some tlsConfig ∧ out = some t ∧
      (view.certExists && view.keyExists) = true ∧ view.readCert = .ok certPem ∧
      view.readKey = .ok keyPem ∧ buildTlsState R tlsConfig certPem keyPem = .ok t := by
  cases tls with
  | none => obtain rfl := Except.ok.inj h; exact .inl ⟨rfl, .inl rfl⟩
  | some tlsConfig =>
    simp only [buildTls] at h
    split_ifs at h with hseen
    · cases hc : view.readCert with
      | error e => simp [hc] at h
      | ok certPem =>
        cases hk : view.readKey with
        | error e => simp [hc, hk] at h
        | ok keyPem =>
          cases hb : buildTlsState R tlsConfig certPem keyPem with
          | error e => simp [hc, hk, hb, Except.map] at h
          | ok t =>
            obtain rfl : some t = out := by simpa [hc, hk, hb, Except.map] using h
            exact .inr ⟨tlsConfig, t, certPem, keyPem, rfl, rfl, hseen, rfl, rfl, hb⟩
    · obtain rfl := Except.ok.inj h
      exact .inl ⟨rfl, .inr (by simpa using hseen)⟩

theorem buildState_ok {R : Rustls} {view : BuildView} {flag : ℕ} {config : Config}
    {state : AppState} (h : buildState R view flag config = .ok state) :
    state.timeoutMs = config.server.timeoutMs ∧
    buildRoutes view.load flag config.routes = .ok state.routes ∧
    buildTls R view config.tls = .ok state.tls := by
  unfold buildState at h
  cases hr : buildRoutes view.load flag config.routes with
  | error e => simp [hr] at h
  | ok routes =>
    cases ht : buildTls R view config.tls with
    | error e => simp [hr, ht] at h
    | ok tls =>
      obtain rfl : ⟨config.server.timeoutMs, routes, tls⟩ = state := by simpa [hr, ht] using h
      exact ⟨rfl, rfl, rfl⟩

/-- A state built from a config with `[tls]` serves TLS exactly when both certificate files
were seen. -/
theorem buildState_tls_isSome_iff {R : Rustls} {view : BuildView} {flag : ℕ} {config : Config}
    {state : AppState} (h : buildState R view flag config = .ok state)
    (ht : config.tls.isSome) :
    state.tls.isSome ↔ (view.certExists && view.keyExists) = true := by
  rcases buildTls_ok (buildState_ok h).2.2 with ⟨hn, hmiss⟩ | ⟨_, t, _, _, _, hsome, hseen, _⟩
  · rcases hmiss with hmiss | hmiss
    · simp [hmiss] at ht
    · simp [hn, hmiss]
  · simp [hsome, hseen]

end ProxyState
