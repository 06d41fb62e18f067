import Mathlib.Data.List.Nodup
import PrismProxy.SocketAddrParser

/-! # Configuration: deserialization and validation

The TOML grammar is the `toml` crate's, so `tomlFromStr` is a parameter: it gives the fields
a document has. The defaults, `from_file` and `validate` are the program's own. -/
namespace ProxyConfig

open SocketAddrParser

inductive ProxyError where
  | io (e : String)
  | hyper (e : String)
  | config (e : String)
  | noRoute (path : String)
  | upstreamConnect (e : String)
  | timeout (e : String)
  | plugin (e : String)
  | tls (e : String)
  | acme (e : String)
  | upstreamUnhealthy (upstream : String)
  deriving DecidableEq, Repr

def ProxyError.display : ProxyError → String
  | .io e => s!"io: {e}"
  | .hyper e => s!"http: {e}"
  | .config e => s!"config: {e}"
  | .noRoute path => s!"no route for path: {path}"
  | .upstreamConnect e => s!"upstream: {e}"
  | .timeout e => s!"timeout: {e}"
  | .plugin e => s!"plugin: {e}"
  | .tls e => s!"tls: {e}"
  | .acme e => s!"acme: {e}"
  | .upstreamUnhealthy upstream => s!"upstream unhealthy: {upstream}"

structure ServerConfig where
  listen : String
  maxIdleConnections : ℕ
  timeoutMs : ℕ
  httpChallengeListen : Option String
  deriving DecidableEq, Repr

structure RouteConfig where
  pathPrefix : String
  upstream : String
  plugins : List String
  deriving DecidableEq, Repr

structure TlsConfig where
  acmeEmail : String
  acmeDirectory : String
  cacheDir : String
  domains : List String
  deriving DecidableEq, Repr

structure Config where
  server : ServerConfig
  routes : List RouteConfig
  tls : Option TlsConfig
  deriving DecidableEq, Repr

def defaultMaxIdle : ℕ := 10
def defaultTimeoutMs : ℕ := 30000
def defaultAcmeDirectory : String := "https://acme-v02.api.letsencrypt.org/directory"

/-- A document of the right shape: the fields with a serde default may be missing. -/
structure Document where
  listen : String
  maxIdleConnections : Option ℕ := none
  timeoutMs : Option ℕ := none
  httpChallengeListen : Option String := none
  routes : Option (List (String × String × Option (List String))) := none
  tls : Option (String × Option String × String × List String) := none

def Document.toConfig (d : Document) : Config where
  server :=
    { listen := d.listen
      maxIdleConnections := d.maxIdleConnections.getD defaultMaxIdle
      timeoutMs := d.timeoutMs.getD defaultTimeoutMs
      httpChallengeListen := d.httpChallengeListen }
  routes := (d.routes.getD []).map fun r => ⟨r.1, r.2.1, r.2.2.getD []⟩
  tls := d.tls.map fun t => ⟨t.1, t.2.1.getD defaultAcmeDirectory, t.2.2.1, t.2.2.2⟩

/-- `Config::parse` over the crate's reading of the text. -/
def parse (tomlFromStr : String → Except String Document) (s : String) :
    Except ProxyError Config :=
  match tomlFromStr s with
  | .ok d => .ok d.toConfig
  | .error e => .error (.config s!"parse: {e}")

/-- `Config::from_file` over the outcome of reading the file. -/
def fromFile (tomlFromStr : String → Except String Document) (content : Except String String) :
    Except ProxyError Config :=
  match content with
  | .ok s => parse tomlFromStr s
  | .error e => .error (.config s!"read: {e}")

/-- `str::starts_with`. -/
def startsWith (s p : String) : Bool := p.toList.isPrefixOf s.toList

theorem startsWith_iff {s p : String} : startsWith s p = true ↔ p.toList <+: s.toList := by
  simp [startsWith]

def validateRoutes : ℕ → List String → List RouteConfig → Except ProxyError Unit
  | _, _, [] => .ok ()
  | i, seenPrefixes, route :: routes =>
    if route.pathPrefix ∈ seenPrefixes then
      .error (.config s!"route[{i}]: duplicate path_prefix '{route.pathPrefix}'")
    else if route.pathPrefix.isEmpty || !startsWith route.pathPrefix "/" then
      .error (.config
        s!"route[{i}]: path_prefix must start with '/', got '{route.pathPrefix}'")
    else
      match parseSocketAddr route.upstream with
      | .error e =>
        .error (.config s!"route[{i}]: invalid upstream address '{route.upstream}': {e}")
      | .ok _ => validateRoutes (i + 1) (route.pathPrefix :: seenPrefixes) routes

def validate (c : Config) : Except ProxyError Unit :=
  match parseSocketAddr c.server.listen with
  | .error e => .error (.config s!"invalid listen address '{c.server.listen}': {e}")
  | .ok _ =>
    if c.tls.isSome && c.server.httpChallengeListen.isNone then
      .error (.config "http_challenge_listen is required when [tls] is configured")
    else validateRoutes 0 [] c.routes

/-- What a validated list of routes satisfies. -/
structure WellFormedRoutes (routes : List RouteConfig) : Prop where
  distinct : (routes.map RouteConfig.pathPrefix).Nodup
  rooted : ∀ r ∈ routes, startsWith r.pathPrefix "/" = true
  upstreams : ∀ r ∈ routes, ∃ addr, parseSocketAddr r.upstream = .ok addr

theorem validateRoutes_cons {i : ℕ} {seen : List String} {route : RouteConfig}
    {routes : List RouteConfig} (h : validateRoutes i seen (route :: routes) = .ok ()) :
    route.pathPrefix ∉ seen ∧ startsWith route.pathPrefix "/" = true ∧
    (∃ addr, parseSocketAddr route.upstream = .ok addr) ∧
    validateRoutes (i + 1) (route.pathPrefix :: seen) routes = .ok () := by
  unfold validateRoutes at h
  split_ifs at h with hseen hroot
  cases hp : parseSocketAddr route.upstream with
  | error e => simp [hp] at h
  | ok addr =>
    simp only [Bool.or_eq_true, not_or, Bool.not_eq_true', Bool.not_eq_false] at hroot
    exact ⟨hseen, hroot.2, ⟨addr, rfl⟩, by simpa [hp] using h⟩

theorem validateRoutes_ok {i : ℕ} {seen : List String} {routes : List RouteConfig}
    (h : validateRoutes i seen routes = .ok ()) :
    WellFormedRoutes routes ∧ ∀ r ∈ routes, r.pathPrefix ∉ seen := by
  induction routes generalizing i seen with
  | nil => exact ⟨⟨List.nodup_nil, by simp, by simp⟩, by simp⟩
  | cons route routes ih =>
    obtain ⟨hseen, hroot, haddr, hrest⟩ := validateRoutes_cons h
    obtain ⟨hw, hnew⟩ := ih hrest
    refine ⟨⟨?_, ?_, ?_⟩, ?_⟩
    · rw [List.map_cons, List.nodup_cons]
      refine ⟨?_, hw.distinct⟩
      intro hm
      obtain ⟨r, hr, hp⟩ := List.mem_map.mp hm
      exact hnew r hr (by simp [hp])
    · simpa using ⟨hroot, hw.rooted⟩
    · simpa using ⟨haddr, hw.upstreams⟩
    · intro r hr
      rcases List.mem_cons.mp hr with rfl | hr
      · exact hseen
      · exact fun hm => hnew r hr (List.mem_cons_of_mem _ hm)

theorem validate_wellFormed {c : Config} (h : validate c = .ok ()) :
    WellFormedRoutes c.routes := by
  unfold validate at h
  cases hl : parseSocketAddr c.server.listen with
  | error e => simp [hl] at h
  | ok addr =>
    simp only [hl] at h
    split_ifs at h
    exact (validateRoutes_ok h).1

end ProxyConfig
