import PrismProxy.CertificateCache
import PrismProxy.ProxyConfig

/-! # Provisioning a certificate

`provision` and `provision_with_store` as one machine with two variants. Every call into the
file system, the ACME crate or the key generator is one step, whose outcome is the reply; a
task that dies simply takes no further step. The two functions differ in how challenges are
served, in the two polls of the certificate and in what a failed `issued_at` write does. -/
namespace AcmeProvision

open ProxyConfig CertificateCache

inductive Variant where
  | provision (httpChallengeListen : String)
  | provisionWithStore
  deriving DecidableEq, Repr

structure Call where
  variant : Variant
  tlsConfig : TlsConfig
  deriving DecidableEq, Repr

inductive ChallengeType where
  | http01
  | dns01
  | tlsAlpn01
  deriving DecidableEq, Repr

/-- With the key authorization the order computes for it. -/
structure Challenge where
  type : ChallengeType
  token : String
  url : String
  keyAuthorization : String
  deriving DecidableEq, Repr

structure Authorization where
  challenges : List Challenge
  deriving DecidableEq, Repr

inductive OrderStatus where
  | pending
  | ready
  | processing
  | valid
  | invalid
  deriving DecidableEq, Repr

/-- A `HashMap` from tokens to key authorizations. -/
abbrev ChallengeMap := String → Option String

def noChallenges : ChallengeMap := fun _ => none

/-- What a call touches: the cache directory, the shared challenge store, the challenge
server it has bound, the timer's clock in nanoseconds and the wall clock in seconds. -/
structure World where
  files : CacheDir
  challenges : ChallengeMap
  responder : Option ChallengeMap
  instant : ℕ
  wall : ℕ

inductive Reply where
  | proceed
  | fs (r : FsReply)
  | unit (r : Except String Unit)
  | authorizations (r : Except String (List Authorization))
  | orderStatus (r : Except String OrderStatus)
  | keyPair (r : Except String String)
  | certificate (r : Except String (Option String))

abbrev Issued := String × String

/-- Where the call stands: the call it makes next, with its arguments and the locals it still
needs. -/
inductive Pc where
  | createDir
  | checkLock
  | createLock
  | account (contact directory : String)
  | newOrder (identifiers : List String)
  | authorizations
  | collect (todo : List Authorization) (challengesMap : ChallengeMap) (urls : List String)
  | bindServer (listen : String) (challengesMap : ChallengeMap) (urls : List String)
  | setReady (urls : List String)
  | sleepOrder (deadline wake : ℕ)
  | refresh (deadline : ℕ)
  | certParams (domains : List String)
  | generateKey
  | serializeCsr (keyPem : String)
  | finalize (keyPem : String)
  | sleepCert (keyPem : String) (deadline : Option ℕ) (wake : ℕ)
  | certificate (keyPem : String) (deadline : Option ℕ)
  | writeCertTmp (certPem keyPem : String)
  | writeKeyTmp (certPem keyPem : String)
  | renameCert (certPem keyPem : String)
  | renameKey (certPem keyPem : String)
  | writeIssuedAt (certPem keyPem : String)
  | unlock (result : Except ProxyError Issued)
  | removeCertTmp (result : Except ProxyError Issued)
  | removeKeyTmp (result : Except ProxyError Issued)
  | clearStore (result : Except ProxyError Issued)
  | done (result : Except ProxyError Issued)

def secs (n : ℕ) : ℕ := n * 1000000000

/-- Leaving the inner function drops the sender that keeps the challenge server alive. -/
def dropServer (call : Call) (w : World) : World :=
  match call.variant with
  | .provision _ => { w with responder := none }
  | .provisionWithStore => w

/-- A `?` inside the inner function: on to the cleanup with the error. -/
def fail (call : Call) (w : World) (message : String) : World × Pc :=
  (dropServer call w, .unlock (.error (.acme message)))

/-- `map_err` and `?` on a call named `what`. -/
def attempt {α : Type} (call : Call) (w : World) (what : String) (r : Except String α)
    (k : α → World × Pc) : World × Pc :=
  match r with
  | .ok a => k a
  | .error e => fail call w s!"{what}: {e}"

/-- The same for a file-system call, which may leave its mark even when it fails. -/
def attemptFs (call : Call) (w : World) (what : String) (pc : Pc)
    (r : Option (Except String Unit × CacheDir)) : Option (World × Pc) :=
  r.map fun (res, files) =>
    attempt call { w with files } what res fun _ => ({ w with files }, pc)

def afterCollect (call : Call) (challengesMap : ChallengeMap) (urls : List String) : Pc :=
  match call.variant with
  | .provision listen => .bindServer listen challengesMap urls
  | .provisionWithStore => .setReady urls

def finish (call : Call) (result : Except ProxyError Issued) : Pc :=
  match call.variant with
  | .provision _ => .done result
  | .provisionWithStore => .clearStore result

/-- One turn of the loop over the authorizations: the first HTTP-01 challenge of each goes
into the map the challenge server will own, or into the shared store. -/
def collectStep (call : Call) (w : World) (auth : Authorization) (todo : List Authorization)
    (challengesMap : ChallengeMap) (urls : List String) : World × Pc :=
  match auth.challenges.find? fun c => c.type == .http01 with
  | none => fail call w "no HTTP-01 challenge available"
  | some c =>
    match call.variant with
    | .provision _ =>
      (w, .collect todo (Function.update challengesMap c.token (some c.keyAuthorization))
        (urls ++ [c.url]))
    | .provisionWithStore =>
      ({ w with challenges := Function.update w.challenges c.token (some c.keyAuthorization) },
        .collect todo challengesMap (urls ++ [c.url]))

def afterRefresh (call : Call) (w : World) (deadline : ℕ) : OrderStatus → World × Pc
  | .ready => (dropServer call w, .certParams call.tlsConfig.domains)
  | .invalid => fail call w "ACME order became invalid"
  | _ =>
    if deadline < w.instant then fail call w "ACME order timed out after 120s"
    else (w, .sleepOrder deadline (w.instant + secs 3))

/-- Sleep before the next look for the certificate: only the store variant has a deadline. -/
def pollCert (call : Call) (w : World) (keyPem : String) (deadline : Option ℕ) : World × Pc :=
  match call.variant with
  | .provision _ => (w, .sleepCert keyPem deadline (w.instant + secs 1))
  | .provisionWithStore => (w, .sleepCert keyPem deadline (w.instant + secs 2))

def certDeadline (call : Call) (w : World) : Option ℕ :=
  match call.variant with
  | .provision _ => none
  | .provisionWithStore => some (w.instant + secs 60)

def certificateWhat (call : Call) : String :=
  match call.variant with
  | .provision _ => "download cert"
  | .provisionWithStore => "get certificate"

def afterCertificate (call : Call) (w : World) (keyPem : String) (deadline : Option ℕ) :
    Option String → World × Pc
  | some certPem => (w, .writeCertTmp certPem keyPem)
  | none =>
    match deadline with
    | none => pollCert call w keyPem deadline
    | some d =>
      if d < w.instant then fail call w "cert not ready after 60s"
      else pollCert call w keyPem deadline

/-- The sidecar: `provision` drops the result of the write, the store variant returns it. -/
def afterIssuedAt (call : Call) (w : World) (certPem keyPem : String)
    (r : Option (Except String Unit × CacheDir)) : Option (World × Pc) :=
  match call.variant with
  | .provision _ => r.map fun (_, files) => ({ w with files }, .unlock (.ok (certPem, keyPem)))
  | .provisionWithStore => attemptFs call w "write issued_at" (.unlock (.ok (certPem, keyPem))) r

def step (call : Call) (w : World) : Pc → Reply → Option (World × Pc)
  | .createDir, .unit (.ok ()) => some (w, .checkLock)
  | .createDir, .unit (.error e) => some (w, .done (.error (.acme s!"create cache_dir: {e}")))
  | .checkLock, .fs r => (fileExists w.files .renewing r).map fun locked =>
      if locked then
        (w, .done (.error (.acme "another renewal is in progress (.renewing exists)")))
      else (w, .createLock)
  | .createLock, .fs r => (writeFile w.files .renewing "" r).map fun (res, files) =>
      match res with
      | .ok () => ({ w with files },
          .account s!"mailto:{call.tlsConfig.acmeEmail}" call.tlsConfig.acmeDirectory)
      | .error e => ({ w with files }, .done (.error (.acme s!"create lockfile: {e}")))
  | .account _ _, .unit r =>
    some (attempt call w "create account" r fun _ => (w, .newOrder call.tlsConfig.domains))
  | .newOrder _, .unit r => some (attempt call w "new order" r fun _ => (w, .authorizations))
  | .authorizations, .authorizations r =>
    some (attempt call w "get authorizations" r fun as => (w, .collect as noChallenges []))
  | .collect [] challengesMap urls, .proceed => some (w, afterCollect call challengesMap urls)
  | .collect (auth :: todo) challengesMap urls, .proceed =>
    some (collectStep call w auth todo challengesMap urls)
  | .bindServer _ challengesMap urls, .unit r =>
    some (attempt call w "bind challenge server" r fun _ =>
      ({ w with responder := some challengesMap }, .setReady urls))
  | .setReady (_ :: urls), .unit r =>
    some (attempt call w "set challenge ready" r fun _ => (w, .setReady urls))
  | .setReady [], .proceed =>
    some (w, .sleepOrder (w.instant + secs 120) (w.instant + secs 3))
  | .sleepOrder deadline wake, .proceed =>
    if wake ≤ w.instant then some (w, .refresh deadline) else none
  | .refresh deadline, .orderStatus r =>
    some (attempt call w "refresh order" r fun st => afterRefresh call w deadline st)
  | .certParams _, .unit r => some (attempt call w "cert params" r fun _ => (w, .generateKey))
  | .generateKey, .keyPair r =>
    some (attempt call w "key generation" r fun keyPem => (w, .serializeCsr keyPem))
  | .serializeCsr keyPem, .unit r =>
    some (attempt call w "serialize CSR" r fun _ => (w, .finalize keyPem))
  | .finalize keyPem, .unit r =>
    some (attempt call w "finalize order" r fun _ =>
      pollCert call w keyPem (certDeadline call w))
  | .sleepCert keyPem deadline wake, .proceed =>
    if wake ≤ w.instant then some (w, .certificate keyPem deadline) else none
  | .certificate keyPem deadline, .certificate r =>
    some (attempt call w (certificateWhat call) r fun cert =>
      afterCertificate call w keyPem deadline cert)
  | .writeCertTmp certPem keyPem, .fs r =>
    attemptFs call w "write cert.pem.tmp" (.writeKeyTmp certPem keyPem)
      (writeFile w.files .certTmp certPem r)
  | .writeKeyTmp certPem keyPem, .fs r =>
    attemptFs call w "write key.pem.tmp" (.renameCert certPem keyPem)
      (writeFile w.files .keyTmp keyPem r)
  | .renameCert certPem keyPem, .fs r =>
    attemptFs call w "rename cert.pem" (.renameKey certPem keyPem)
      (renameFile w.files .certTmp .cert r)
  | .renameKey certPem keyPem, .fs r =>
    attemptFs call w "rename key.pem" (.writeIssuedAt certPem keyPem)
      (renameFile w.files .keyTmp .key r)
  | .writeIssuedAt certPem keyPem, .fs r =>
    afterIssuedAt call w certPem keyPem (writeFile w.files .issuedAt (toString w.wall) r)
  | .unlock result, .fs r => (removeFile w.files .renewing r).map fun files =>
      ({ w with files },
        match result with
        | .error _ => .removeCertTmp result
        | .ok _ => finish call result)
  | .removeCertTmp result, .fs r => (removeFile w.files .certTmp r).map fun files =>
      ({ w with files }, .removeKeyTmp result)
  | .removeKeyTmp result, .fs r => (removeFile w.files .keyTmp r).map fun files =>
      ({ w with files }, finish call result)
  | .clearStore result, .proceed => some ({ w with challenges := noChallenges }, .done result)
  | _, _ => none

inductive Phase where
  | ordering
  | writingCertTmp (certPem keyPem : String)
  | writingKeyTmp (certPem keyPem : String)
  | renamingCert (certPem keyPem : String)
  | renamingKey (certPem keyPem : String)
  | writingIssuedAt (certPem keyPem : String)
  | returning (result : Except ProxyError Issued)

def Pc.phase : Pc → Phase
  | .writeCertTmp certPem keyPem => .writingCertTmp certPem keyPem
  | .writeKeyTmp certPem keyPem => .writingKeyTmp certPem keyPem
  | .renameCert certPem keyPem => .renamingCert certPem keyPem
  | .renameKey certPem keyPem => .renamingKey certPem keyPem
  | .writeIssuedAt certPem keyPem => .writingIssuedAt certPem keyPem
  | .unlock result | .removeCertTmp result | .removeKeyTmp result | .clearStore result
  | .done result => .returning result
  | _ => .ordering

@[simp] theorem dropServer_files (call : Call) (w : World) :
    (dropServer call w).files = w.files := by
  unfold dropServer; cases call.variant <;> rfl

@[simp] theorem finish_phase (call : Call) (result : Except ProxyError Issued) :
    (finish call result).phase = .returning result := by
  unfold finish; cases call.variant <;> rfl

end AcmeProvision
