import PrismProxy.CertificateCache
import PrismProxy.ProxyState

/-! # From a config file to a published state

The three tasks that publish a state go through the same motions: read the config file, then
run `build_state`, whose file-system calls are steps of their own, then store the result.
What they hold in between, and what they publish, carries the proof of where it came from. -/
namespace StatePublication

open ProxyConfig ProxyPlugin ProxyState CertificateCache

/-- The third-party readers the server relies on. -/
structure Host where
  tomlFromStr : String → Except String Document
  rustls : Rustls

structure FileVersion where
  mtime : ℕ
  content : String
  deriving DecidableEq, Repr

variable {H : Host}

/-- A config with the file version it was read from and, for the record, the number of states
published by then. -/
structure Reading (H : Host) where
  version : FileVersion
  config : Config
  readAt : ℕ
  parsed : parse H.tomlFromStr version.content = .ok config

structure ValidReading (H : Host) extends Reading H where
  valid : validate config = .ok ()

/-- What `renewal_loop` keeps of a tick: a config with `[tls]`. It is not validated. -/
structure RenewalReading (H : Host) extends Reading H where
  tlsConfig : TlsConfig
  configured : config.tls = some tlsConfig

/-- `Config::from_file` on the file as it is now. -/
def readConfig (H : Host) (file : FileVersion) (published : ℕ) :
    FsReply → Option (Except ProxyError (Reading H))
  | .ok => some <|
    match h : parse H.tomlFromStr file.content with
    | .ok config => .ok ⟨file, config, published, h⟩
    | .error e => .error e
  | .failed e => some (.error (.config s!"read: {e}"))
  | .torn _ _ => none

/-- `Config::from_file` and `validate`. -/
def readValid (H : Host) (file : FileVersion) (published : ℕ) (reply : FsReply) :
    Option (Except ProxyError (ValidReading H)) :=
  (readConfig H file published reply).map fun
    | .error e => .error e
    | .ok r =>
      match h : validate r.config with
      | .ok () => .ok ⟨r, h⟩
      | .error e => .error e

inductive Stage where
  | plugins
  | certExists
  | keyExists
  | readCert
  | readKey
  | ready
  deriving DecidableEq, Repr

/-- A `build_state` in progress: its next call and the answers so far. -/
structure Build where
  stage : Stage
  view : BuildView

inductive Answer where
  | fs (r : FsReply)
  | load (f : String → Except String Module)

def Build.start : Build := ⟨.plugins, ⟨fun _ => .error "", false, false, .error "", .error ""⟩⟩

def Build.step (dirs : String → CacheDir) (config : Config) (b : Build) : Answer → Option Build
  | .load f =>
    if b.stage = .plugins then
      some ⟨if config.tls.isSome && (buildRoutes f 0 config.routes).isOk then .certExists
        else .ready, { b.view with load := f }⟩
    else none
  | .fs r =>
    match config.tls with
    | none => none
    | some tlsConfig =>
      let files := dirs tlsConfig.cacheDir
      match b.stage with
      | .certExists => (fileExists files .cert r).map fun found =>
        ⟨if found then .keyExists else .ready, { b.view with certExists := found }⟩
      | .keyExists => (fileExists files .key r).map fun found =>
        ⟨if found then .readCert else .ready, { b.view with keyExists := found }⟩
      | .readCert => (readFile files .cert r).map fun res =>
        ⟨if res.isOk then .readKey else .ready, { b.view with readCert := res }⟩
      | .readKey => (readFile files .key r).map fun res =>
        ⟨.ready, { b.view with readKey := res }⟩
      | _ => none

/-- What is stored into the `ArcSwap`, with its provenance. -/
structure Publication (H : Host) extends Reading H where
  view : BuildView
  flag : ℕ
  state : AppState
  built : buildState H.rustls view flag config = .ok state

/-- The end of `build_state`: everything has been read, the state is put together. -/
def finishBuild (r : Reading H) (view : BuildView) (flag : ℕ) :
    Except ProxyError (Publication H) :=
  match h : buildState H.rustls view flag r.config with
  | .ok state => .ok ⟨r, view, flag, state, h⟩
  | .error e => .error e

theorem readConfig_ok {file : FileVersion} {published : ℕ} {reply : FsReply} {r : Reading H}
    (h : readConfig H file published reply = some (.ok r)) :
    r.version = file ∧ r.readAt = published := by
  cases reply with
  | ok =>
    have h := Option.some.inj h
    split at h
    · obtain rfl := Except.ok.inj h; exact ⟨rfl, rfl⟩
    · cases h
  | failed e => simp [readConfig] at h
  | torn n e => simp [readConfig] at h

theorem readConfig_fromFile (file : FileVersion) (published : ℕ) (reply : FsReply) :
    (readConfig H file published reply).map (Except.map Reading.config) =
      match reply with
      | .ok => some (fromFile H.tomlFromStr (.ok file.content))
      | .failed e => some (fromFile H.tomlFromStr (.error e))
      | .torn _ _ => none := by
  cases reply with
  | ok =>
    simp only [readConfig, fromFile, Option.map_some]
    split <;> simp [Except.map, *]
  | failed e => rfl
  | torn n e => rfl

theorem readValid_ok {file : FileVersion} {published : ℕ} {reply : FsReply} {r : ValidReading H}
    (h : readValid H file published reply = some (.ok r)) :
    r.version = file ∧ r.readAt = published := by
  obtain ⟨res, hres, hr⟩ := Option.map_eq_some_iff.mp h
  cases res with
  | error e => cases hr
  | ok reading =>
    dsimp only at hr
    split at hr
    · obtain rfl := Except.ok.inj hr
      exact readConfig_ok hres
    · cases hr

theorem finishBuild_ok {r : Reading H} {view : BuildView} {flag : ℕ} {p : Publication H}
    (h : finishBuild r view flag = .ok p) :
    p.toReading = r ∧ p.view = view ∧ p.flag = flag := by
  unfold finishBuild at h
  split at h
  · obtain rfl := Except.ok.inj h; exact ⟨rfl, rfl, rfl⟩
  · cases h

/-- A published state of a config with `[tls]` serves TLS exactly when its build saw both
certificate files. -/
theorem Publication.tls_isSome_iff (p : Publication H) (ht : p.config.tls.isSome) :
    p.state.tls.isSome ↔ (p.view.certExists && p.view.keyExists) = true :=
  buildState_tls_isSome_iff p.built ht

theorem Publication.routes (p : Publication H) :
    p.state.routes.map RouteState.route = p.config.routes ∧
    p.state.routes.map RouteState.healthy = List.range' p.flag p.config.routes.length :=
  buildRoutes_ok (buildState_ok p.built).2.1

theorem Publication.flag_bounds (p : Publication H) {rs : RouteState} (h : rs ∈ p.state.routes) :
    p.flag ≤ rs.healthy ∧ rs.healthy < p.flag + p.config.routes.length := by
  have hm : rs.healthy ∈ p.state.routes.map RouteState.healthy := List.mem_map_of_mem h
  rw [p.routes.2, List.mem_range'_1] at hm
  exact hm

/-- What the build has read of the pair is what the directory holds. -/
structure Build.Reads (b : Build) (files : CacheDir) : Prop where
  cert : ∀ cert, b.view.readCert = .ok cert → files .cert = some cert
  key : ∀ key, b.view.readKey = .ok key → files .key = some key

theorem Build.start_reads (files : CacheDir) : Build.start.Reads files where
  cert := by intro cert h; cases h
  key := by intro key h; cases h

theorem Build.Reads.congr {b : Build} {files files' : CacheDir} (h : b.Reads files)
    (hp : pairOf files' = pairOf files) : b.Reads files' := by
  obtain ⟨hc, hk⟩ := Prod.mk.inj hp
  exact ⟨fun cert hr => hc.trans (h.cert cert hr), fun key hr => hk.trans (h.key key hr)⟩

theorem readFile_ok {files : CacheDir} {f : CacheFile} {reply : FsReply} {content : String}
    (h : readFile files f reply = some (.ok content)) : files f = some content := by
  cases reply with
  | ok =>
    obtain ⟨c, hc, ho⟩ := Option.map_eq_some_iff.mp h
    rw [hc, Except.ok.inj ho]
  | failed e => cases h
  | torn n e => cases h

theorem Build.step_reads {dirs : String → CacheDir} {config : Config} {tlsConfig : TlsConfig}
    {b b' : Build} {a : Answer} (ht : config.tls = some tlsConfig)
    (h : b.Reads (dirs tlsConfig.cacheDir)) (hs : b.step dirs config a = some b') :
    b'.Reads (dirs tlsConfig.cacheDir) := by
  cases a with
  | load f =>
    simp only [Build.step, Option.ite_none_right_eq_some] at hs
    cases hs.2
    exact ⟨h.cert, h.key⟩
  | fs r =>
    simp only [Build.step, ht] at hs
    split at hs
    · obtain ⟨found, _, rfl⟩ := Option.map_eq_some_iff.mp hs
      exact ⟨h.cert, h.key⟩
    · obtain ⟨found, _, rfl⟩ := Option.map_eq_some_iff.mp hs
      exact ⟨h.cert, h.key⟩
    · obtain ⟨res, hres, rfl⟩ := Option.map_eq_some_iff.mp hs
      refine ⟨?_, h.key⟩
      rintro cert rfl
      exact readFile_ok hres
    · obtain ⟨res, hres, rfl⟩ := Option.map_eq_some_iff.mp hs
      refine ⟨h.cert, ?_⟩
      rintro key rfl
      exact readFile_ok hres
    · cases hs

end StatePublication
