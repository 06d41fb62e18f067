import PrismProxy.TransitionRuns
import PrismProxy.AcmeProvisionSteps
import PrismProxy.ProxyHealthCheck
import PrismProxy.StatePublication

/-! # The server

`run_with_listener_hot` with the tasks it spawns: the start-up code, the reload loop, the
renewal loop, the health loops and one handler for each accepted connection. They share the
published state, the config file and the cache directories. A step of a task is one call it
makes; the environment edits files, moves the clock and opens connections between any two. -/
namespace ProxyServer

open ProxyConfig ProxyState ProxyHealthCheck CertificateCache StatePublication
open AcmeProvision (Call ChallengeMap World Issued)

variable {H : Host}

/-- What start-up keeps of the first config it read. -/
structure Boot where
  hasTlsConfig : Bool
  httpChallengeListen : Option String
  deriving DecidableEq, Repr

inductive MainPc (H : Host) where
  | readConfig
  | building (r : ValidReading H) (b : Build)
  | readAgain (boot : Boot)
  | provisioning (boot : Boot) (call : Call) (pc : AcmeProvision.Pc)
  | reread (boot : Boot)
  | rebuilding (boot : Boot) (r : ValidReading H) (b : Build)
  | stat (boot : Boot)
  | readPort (boot : Boot)
  | serving
  | returned (result : Except ProxyError Unit)
  | panicked

inductive ReloadPc (H : Host) where
  | tick
  | stat
  | read (mtime : ℕ)
  | building (mtime : ℕ) (r : ValidReading H) (b : Build)

inductive RenewalPc (H : Host) where
  | tick
  | readConfig
  | checkCert (r : RenewalReading H)
  | checkIssuedAt (r : RenewalReading H)
  | provisioning (r : RenewalReading H) (call : Call) (pc : AcmeProvision.Pc)
  | building (r : RenewalReading H) (b : Build)

/-- A connection given to `serve_tls` or to `serve_plain`, with the state it was chosen by. -/
structure Handoff (H : Host) where
  publication : Publication H
  tls : Bool

/-- The `ArcSwap` holds the head of `log`, which lists every state ever stored, newest first.
`history` and `handed` are records of what happened. -/
structure State (H : Host) where
  file : FileVersion
  history : List FileVersion
  dirs : String → CacheDir
  challenges : ChallengeMap
  responder : Option ChallengeMap
  instant : ℕ
  wall : ℕ
  flags : ℕ → Bool
  nextFlag : ℕ
  loops : List HealthLoop
  log : List (Publication H)
  main : MainPc H
  reload : Option (ReloadPc H)
  lastMtime : ℕ
  renewal : Option (RenewalPc H)
  challengeStore : Bool
  redirect : Option (String × ℕ)
  pending : ℕ
  handed : List (Handoff H)

def State.published (s : State H) : Option (Publication H) := s.log.head?

inductive Reply where
  | proceed
  | call (a : Answer)
  | acme (r : AcmeProvision.Reply)

inductive Event where
  | writeConfig (v : FileVersion)
  | editCache (dir : String) (files : CacheDir)
  | clock (instant wall : ℕ)
  | ping (i : ℕ) (ok : Bool)
  | main (r : Reply)
  | reload (r : Reply)
  | renewal (r : Reply)
  | accept
  | acceptError (e : String)
  | shutdown
  | dispatch

def State.world (s : State H) (dir : String) : World :=
  ⟨s.dirs dir, s.challenges, s.responder, s.instant, s.wall⟩

def State.readConfig (s : State H) (r : FsReply) : Option (Except ProxyError (Reading H)) :=
  StatePublication.readConfig H s.file s.log.length r

def State.readValid (s : State H) (r : FsReply) : Option (Except ProxyError (ValidReading H)) :=
  StatePublication.readValid H s.file s.log.length r

inductive MainEffect (H : Host) where
  | goto (pc : MainPc H)
  | provision (dir : String) (w : World) (pc : MainPc H)
  | publish (p : Publication H) (boot : Boot)
  | watch (mtime : ℕ) (boot : Boot)
  | renew (redirect : Option (String × ℕ))

inductive ReloadEffect (H : Host) where
  | goto (pc : ReloadPc H)
  | store (mtime : ℕ) (p : Publication H)

inductive RenewalEffect (H : Host) where
  | goto (pc : RenewalPc H)
  | provision (dir : String) (w : World) (pc : RenewalPc H)
  | store (p : Publication H)

/-- `?` in `run_with_listener_hot`. -/
def leaveOr {α : Type} (k : α → MainEffect H) : Except ProxyError α → MainEffect H
  | .ok a => k a
  | .error e => .goto (.returned (.error e))

/-- After `build_state` on the first config: provision unless TLS is off or a pair is there. -/
def afterBuild (p : Publication H) : MainEffect H :=
  let boot : Boot := ⟨p.config.tls.isSome, p.config.server.httpChallengeListen⟩
  if boot.hasTlsConfig && p.state.tls.isNone then .goto (.readAgain boot) else .publish p boot

/-- The second read, whose config is not validated: its `[tls]` is unwrapped. -/
def afterReadAgain (boot : Boot) (config : Config) : MainEffect H :=
  match config.tls with
  | none => .goto .panicked
  | some tlsConfig =>
    match boot.httpChallengeListen with
    | none =>
      .goto (.returned
        (.error (.config "http_challenge_listen required when [tls] is configured")))
    | some listen => .goto (.provisioning boot ⟨.provision listen, tlsConfig⟩ .createDir)

def afterMainProvision (boot : Boot) (call : Call) : AcmeProvision.Pc → MainPc H
  | .done (.ok _) => .reread boot
  | .done (.error e) => .returned (.error e)
  | pc => .provisioning boot call pc

def httpsPort : Except ProxyError (Reading H) → ℕ
  | .ok r =>
    match SocketAddrParser.parseSocketAddr r.config.server.listen with
    | .ok addr => addr.port
    | .error _ => 443
  | .error _ => 443

def redirectServer (boot : Boot) (port : ℕ) : Option (String × ℕ) :=
  let bind := boot.httpChallengeListen.getD ""
  if bind.isEmpty then none else some (bind, port)

def mainStep (s : State H) (pc : MainPc H) : Reply → Option (MainEffect H)
  | .proceed =>
    match pc with
    | .building r ⟨.ready, view⟩ =>
      some (leaveOr afterBuild (finishBuild r.toReading view s.nextFlag))
    | .rebuilding boot r ⟨.ready, view⟩ =>
      some (leaveOr (fun p => .publish p boot) (finishBuild r.toReading view s.nextFlag))
    | _ => none
  | .call (.load f) =>
    match pc with
    | .building r b => (b.step s.dirs r.config (.load f)).map fun b => .goto (.building r b)
    | .rebuilding boot r b =>
      (b.step s.dirs r.config (.load f)).map fun b => .goto (.rebuilding boot r b)
    | _ => none
  | .call (.fs reply) =>
    match pc with
    | .readConfig =>
      (s.readValid reply).map (leaveOr fun r => .goto (.building r Build.start))
    | .building r b => (b.step s.dirs r.config (.fs reply)).map fun b => .goto (.building r b)
    | .readAgain boot =>
      (s.readConfig reply).map (leaveOr fun r => afterReadAgain boot r.config)
    | .reread boot =>
      (s.readValid reply).map (leaveOr fun r => .goto (.rebuilding boot r Build.start))
    | .rebuilding boot r b =>
      (b.step s.dirs r.config (.fs reply)).map fun b => .goto (.rebuilding boot r b)
    | .stat boot =>
      match reply with
      | .ok => some (.watch s.file.mtime boot)
      | .failed _ => some (.watch 0 boot)
      | .torn _ _ => none
    | .readPort boot =>
      (s.readConfig reply).map fun res => .renew (redirectServer boot (httpsPort res))
    | _ => none
  | .acme reply =>
    match pc with
    | .provisioning boot call pc =>
      (AcmeProvision.step call (s.world call.tlsConfig.cacheDir) pc reply).map fun (w, pc) =>
        .provision call.tlsConfig.cacheDir w (afterMainProvision boot call pc)
    | _ => none

def reloadStep (s : State H) (pc : ReloadPc H) : Reply → Option (ReloadEffect H)
  | .proceed =>
    match pc with
    | .tick => some (.goto .stat)
    | .building mtime r ⟨.ready, view⟩ =>
      match finishBuild r.toReading view s.nextFlag with
      | .ok p => some (.store mtime p)
      | .error _ => some (.goto .tick)
    | _ => none
  | .call (.load f) =>
    match pc with
    | .building mtime r b =>
      (b.step s.dirs r.config (.load f)).map fun b => .goto (.building mtime r b)
    | _ => none
  | .call (.fs reply) =>
    match pc with
    | .stat =>
      match reply with
      | .ok => some (.goto (if s.file.mtime ≤ s.lastMtime then .tick else .read s.file.mtime))
      | .failed _ => some (.goto .tick)
      | .torn _ _ => none
    | .read mtime => (s.readValid reply).map fun
        | .ok r => .goto (.building mtime r Build.start)
        | .error _ => .goto .tick
    | .building mtime r b =>
      (b.step s.dirs r.config (.fs reply)).map fun b => .goto (.building mtime r b)
    | _ => none
  | .acme _ => none

/-- The config read at the start of a renewal tick: a tick without `[tls]` is over. -/
def afterRenewalRead : Except ProxyError (Reading H) → RenewalPc H
  | .error _ => .tick
  | .ok r =>
    match h : r.config.tls with
    | none => .tick
    | some tlsConfig => .checkCert ⟨r, tlsConfig, h⟩

/-- The choice between the two variants; without a store a config that lacks
`http_challenge_listen` ends the tick. -/
def startProvision (challengeStore : Bool) (r : RenewalReading H) : RenewalPc H :=
  if challengeStore then .provisioning r ⟨.provisionWithStore, r.tlsConfig⟩ .createDir
  else
    match r.config.server.httpChallengeListen with
    | none => .tick
    | some listen => .provisioning r ⟨.provision listen, r.tlsConfig⟩ .createDir

def afterRenewalProvision (r : RenewalReading H) (call : Call) : AcmeProvision.Pc → RenewalPc H
  | .done (.ok _) => .building r Build.start
  | .done (.error _) => .tick
  | pc => .provisioning r call pc

def renewalStep (s : State H) (pc : RenewalPc H) : Reply → Option (RenewalEffect H)
  | .proceed =>
    match pc with
    | .tick => some (.goto .readConfig)
    | .building r ⟨.ready, view⟩ =>
      match finishBuild r.toReading view s.nextFlag with
      | .ok p => some (.store p)
      | .error _ => some (.goto .tick)
    | _ => none
  | .call (.load f) =>
    match pc with
    | .building r b => (b.step s.dirs r.config (.load f)).map fun b => .goto (.building r b)
    | _ => none
  | .call (.fs reply) =>
    match pc with
    | .readConfig => (s.readConfig reply).map fun res => .goto (afterRenewalRead res)
    | .checkCert r =>
      (fileExists (s.dirs r.tlsConfig.cacheDir) .cert reply).map fun found =>
        .goto (if found then .checkIssuedAt r else startProvision s.challengeStore r)
    | .checkIssuedAt r =>
      (readFile (s.dirs r.tlsConfig.cacheDir) .issuedAt reply).map fun res =>
        .goto (if certNeedsRenewal true res.toOption s.wall
          then startProvision s.challengeStore r else .tick)
    | .building r b => (b.step s.dirs r.config (.fs reply)).map fun b => .goto (.building r b)
    | _ => none
  | .acme reply =>
    match pc with
    | .provisioning r call pc =>
      (AcmeProvision.step call (s.world r.tlsConfig.cacheDir) pc reply).map fun (w, pc) =>
        .provision r.tlsConfig.cacheDir w (afterRenewalProvision r call pc)
    | _ => none

/-- `ArcSwap::store`, and the flags `build_state` allocated for the routes of the new state. -/
def State.store (s : State H) (p : Publication H) : State H :=
  { s with
    log := p :: s.log
    nextFlag := s.nextFlag + p.config.routes.length
    flags := fun i =>
      if s.nextFlag ≤ i ∧ i < s.nextFlag + p.config.routes.length then true else s.flags i }

def State.provisioned (s : State H) (dir : String) (w : World) : State H :=
  { s with
    dirs := Function.update s.dirs dir w.files
    challenges := w.challenges
    responder := w.responder }

def spawnLoops (p : Publication H) : List HealthLoop :=
  p.state.routes.map fun rs => HealthLoop.spawn rs.route.upstream rs.healthy

def State.mainEffect (s : State H) : MainEffect H → State H
  | .goto pc => { s with main := pc }
  | .provision dir w pc => { s.provisioned dir w with main := pc }
  | .publish p boot => { s.store p with loops := spawnLoops p, main := .stat boot }
  | .watch mtime boot =>
    { s with
      lastMtime := mtime
      reload := some .tick
      main := if boot.hasTlsConfig then .readPort boot else .serving }
  | .renew redirect =>
    { s with
      redirect := redirect
      renewal := some .tick
      challengeStore := true
      main := .serving }

def State.reloadEffect (s : State H) : ReloadEffect H → State H
  | .goto pc => { s with reload := some pc }
  | .store mtime p => { s.store p with reload := some .tick, lastMtime := mtime }

def State.renewalEffect (s : State H) : RenewalEffect H → State H
  | .goto pc => { s with renewal := some pc }
  | .provision dir w pc => { s.provisioned dir w with renewal := some pc }
  | .store p => { s.store p with renewal := some .tick }

def State.ping (s : State H) (i : ℕ) (ok : Bool) : Option (State H) :=
  (s.loops[i]?).map fun l =>
    let turn := l.ping (s.flags l.healthy) ok
    { s with
      loops := s.loops.set i turn.1
      flags := Function.update s.flags l.healthy turn.2 }

/-- A handler loads the published state and chooses by its `tls`. -/
def State.dispatch (s : State H) : Option (State H) :=
  match s.pending, s.log with
  | n + 1, p :: _ => some { s with pending := n, handed := ⟨p, p.state.tls.isSome⟩ :: s.handed }
  | _, _ => none

def State.accepting (s : State H) : Bool := match s.main with | .serving => true | _ => false

def next (s : State H) : Event → Option (State H)
  | .writeConfig v => some { s with file := v, history := v :: s.history }
  | .editCache dir files => some { s with dirs := Function.update s.dirs dir files }
  | .clock instant wall =>
    if s.instant ≤ instant then some { s with instant := instant, wall := wall } else none
  | .ping i ok => s.ping i ok
  | .main r => (mainStep s s.main r).map s.mainEffect
  | .reload r => s.reload.bind fun pc => (reloadStep s pc r).map s.reloadEffect
  | .renewal r => s.renewal.bind fun pc => (renewalStep s pc r).map s.renewalEffect
  | .accept => if s.accepting then some { s with pending := s.pending + 1 } else none
  | .acceptError e =>
    if s.accepting then some { s with main := .returned (.error (.io e)) } else none
  | .shutdown => if s.accepting then some { s with main := .returned (.ok ()) } else none
  | .dispatch => s.dispatch

/-- The server before its first step, on any files and at any time. -/
def boot (H : Host) (file : FileVersion) (dirs : String → CacheDir) (instant wall : ℕ) :
    State H where
  file := file
  history := [file]
  dirs := dirs
  challenges := AcmeProvision.noChallenges
  responder := none
  instant := instant
  wall := wall
  flags := fun _ => true
  nextFlag := 0
  loops := []
  log := []
  main := .readConfig
  reload := none
  lastMtime := 0
  renewal := none
  challengeStore := false
  redirect := none
  pending := 0
  handed := []

def sampleHost : Host where
  tomlFromStr content := .ok
    { listen := "127.0.0.1:443"
      httpChallengeListen := some "127.0.0.1:80"
      routes := some [("/", content, none)]
      tls := some ("ops@example.com", none, "/cache", ["example.com"]) }
  rustls :=
    { certs := fun pem => .ok [pem.toList.map fun c => UInt8.ofNat c.toNat]
      privateKey := fun pem => .ok (some (pem.toList.map fun c => UInt8.ofNat c.toNat))
      withSingleCert := fun _ _ => .ok () }

def optionalTlsHost : Host where
  tomlFromStr content := .ok
    { listen := "127.0.0.1:443"
      httpChallengeListen := some "127.0.0.1:80"
      routes := some [("/", "127.0.0.1:3000", none)]
      tls := if content = "tls" then some ("ops@example.com", none, "/cache", ["example.com"])
        else none }
  rustls := sampleHost.rustls

def samplePair : CacheDir
  | .cert => some "old cert"
  | .key => some "old key"
  | _ => none

def sampleBoot : State sampleHost :=
  boot sampleHost ⟨1, "127.0.0.1:3000"⟩ (fun _ => samplePair) 0 1700000000

def Reply.ok : Reply := .call (.fs .ok)
def Reply.failed : Reply := .call (.fs (.failed "EACCES"))
def Reply.noPlugins : Reply := .call (.load fun _ => .error "no such file")

def sampleStart : List Event :=
  [.ok, .noPlugins, .ok, .ok, .ok, .ok, .proceed, .ok, .ok].map .main

def sampleServing : State sampleHost :=
  (TransitionRuns.exec next sampleBoot sampleStart).getD sampleBoot

def sampleRenewal : List Event :=
  [.proceed, .ok, .ok, .failed, .acme (.unit (.ok ())), .acme (.fs .ok), .acme (.fs .ok),
   .acme (.unit (.ok ())), .acme (.unit (.ok ())), .acme (.authorizations (.ok [])),
   .acme .proceed, .acme .proceed].map .renewal ++
  [.clock (AcmeProvision.secs 3) 1700000003] ++
  [.acme .proceed, .acme (.orderStatus (.ok .ready)), .acme (.unit (.ok ())),
   .acme (.keyPair (.ok "new key")), .acme (.unit (.ok ())), .acme (.unit (.ok ()))].map .renewal ++
  [.clock (AcmeProvision.secs 5) 1700000005] ++
  [.acme .proceed, .acme (.certificate (.ok (some "new cert"))), .acme (.fs .ok),
   .acme (.fs .ok), .acme (.fs .ok), .acme (.fs .ok), .acme (.fs .ok), .acme (.fs .ok),
   .acme .proceed].map .renewal

def sampleBuild : List Reply := [.noPlugins, .ok, .ok, .ok, .ok, .proceed]

def sampleReload : List Event := (.proceed :: .ok :: .ok :: sampleBuild).map .reload

end ProxyServer
