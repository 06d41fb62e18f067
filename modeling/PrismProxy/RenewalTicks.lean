import PrismProxy.ProxyServerSteps

/-! # The ticks of the renewal loop

`renewal_loop` waits on an interval of 24 hours, whose first tick completes at once and each
other one a period after the one before was due. On top of the server this machine has the
interval, and a log of what each tick found, decided and left. -/
namespace RenewalTicks

open TransitionRuns ProxyConfig CertificateCache StatePublication ProxyServer
open AcmeProvision (Call Phase World)

variable {H : Host}

/-- 24 hours, in seconds. -/
def period : ℕ := 86400

inductive Outcome where
  | skipped
  | failed
  | renewed
  deriving DecidableEq, Repr

/-- A tick that is over: the cache directory as it found and left it, and the clock when it
decided. -/
structure Tick where
  found : CacheDir
  now : ℕ
  outcome : Outcome
  left : CacheDir

def Tick.attempted (t : Tick) : Bool := t.outcome != .skipped

/-- `deadline` is when the interval completes next. What the tick under way decided on, `found`
and `now`, and the log are records of what happened. -/
structure State (H : Host) where
  server : ProxyServer.State H
  deadline : ℕ
  found : CacheDir
  now : ℕ
  log : List Tick

/-- Where `renewal_loop` is called. -/
def start (s : ProxyServer.State H) : State H := ⟨s, s.wall, fun _ => none, 0, []⟩

def fires (s : ProxyServer.State H) : Event → Bool
  | .renewal .proceed =>
    match s.renewal with
    | some .tick => true
    | _ => false
  | _ => false

def State.finish (s : State H) (t : ProxyServer.State H) (found : CacheDir) (now : ℕ)
    (outcome : Outcome) (dir : String) : State H :=
  { s with server := t, log := s.log ++ [⟨found, now, outcome, t.dirs dir⟩] }

/-- What is recorded of a step of the server to `t`. -/
def State.observe (s : State H) (t : ProxyServer.State H) : State H :=
  match s.server.renewal, t.renewal with
  | some .tick, some .readConfig => { s with server := t, deadline := s.deadline + period }
  | some (.checkCert r), some (.provisioning _ _ _)
  | some (.checkIssuedAt r), some (.provisioning _ _ _) =>
    { s with
      server := t
      found := s.server.dirs r.tlsConfig.cacheDir
      now := s.server.wall }
  | some (.checkIssuedAt r), some .tick =>
    s.finish t (s.server.dirs r.tlsConfig.cacheDir) s.server.wall .skipped r.tlsConfig.cacheDir
  | some (.provisioning r _ _), some .tick =>
    s.finish t s.found s.now .failed r.tlsConfig.cacheDir
  | some (.building r _), some .tick => s.finish t s.found s.now .renewed r.tlsConfig.cacheDir
  | _, _ => { s with server := t }

def next (s : State H) (e : Event) : Option (State H) :=
  if fires s.server e = true ∧ s.server.wall < s.deadline then none
  else (ProxyServer.next s.server e).map s.observe

def State.busy (s : State H) : Bool :=
  match s.server.renewal with
  | none | some .tick => false
  | _ => true

def SameRecord (files files' : CacheDir) : Prop :=
  files .cert = files' .cert ∧ files .issuedAt = files' .issuedAt

instance (files files' : CacheDir) : Decidable (SameRecord files files') :=
  inferInstanceAs (Decidable (_ ∧ _))

/-- The clock goes forward in whole seconds that a `SystemTime` can hold, passes no tick of the
interval by, and reaches none while the one before is at work. -/
def onTime (s : State H) : Event → Bool
  | .clock _ wall =>
    s.server.wall ≤ wall && wall < 2 ^ 63 && wall ≤ s.deadline && (!s.busy || wall < s.deadline)
  | _ => true

/-- Each tick reads a config with this `[tls]`. -/
def fixedConfig (tlsConfig : TlsConfig) (s : State H) : Event → Bool
  | .renewal (.call (.fs reply)) =>
    match s.server.renewal with
    | some .readConfig =>
      match s.server.readConfig reply with
      | some (.ok r) => r.config.tls = some tlsConfig
      | _ => false
    | _ => true
  | _ => true

/-- The loop is told of `cert.pem` and of `issued_at` as they are. -/
def answered (s : State H) : Event → Bool
  | .renewal (.call (.fs reply)) =>
    match s.server.renewal with
    | some (.checkCert _) => reply = .ok
    | some (.checkIssuedAt r) =>
      reply = .ok || (s.server.dirs r.tlsConfig.cacheDir .issuedAt).isNone
    | _ => true
  | _ => true

/-- Nobody else writes what the loop decides by. -/
def keepsRecord (tlsConfig : TlsConfig) (s : State H) : Event → Bool
  | .editCache dir files =>
    dir ≠ tlsConfig.cacheDir || SameRecord files (s.server.dirs tlsConfig.cacheDir)
  | _ => true

/-- An attempt that fails leaves that as the tick found it. -/
def failsClean (tlsConfig : TlsConfig) (s : State H) (e : Event) : Bool :=
  match s.server.renewal, next s e with
  | some (.provisioning _ _ _), some t =>
    match t.server.renewal with
    | some .tick => SameRecord (t.server.dirs tlsConfig.cacheDir) s.found
    | _ => true
  | _, _ => true

def Regular (tlsConfig : TlsConfig) (s : State H) (e : Event) : Prop :=
  (onTime s e && fixedConfig tlsConfig s e && answered s e && keepsRecord tlsConfig s e &&
    failsClean tlsConfig s e) = true

instance (tlsConfig : TlsConfig) (s : State H) (e : Event) :
    Decidable (Regular tlsConfig s e) := inferInstanceAs (Decidable (_ = true))

/-- `issued_at` is the number `n` as provisioning writes it, or absent and `n` is 0. -/
def Records (files : CacheDir) (n : ℕ) : Prop :=
  files .issuedAt = some (toString n) ∨ (files .issuedAt = none ∧ n = 0)

/-- The server as it calls `renewal_loop`, with a challenge store. -/
structure StartsLoop (tlsConfig : TlsConfig) (s : ProxyServer.State H) : Prop where
  renewal : s.renewal = some .tick
  challengeStore : s.challengeStore = true
  main : s.main = .serving
  clock : s.wall < 2 ^ 63
  record : ∃ n, n ≤ s.wall ∧ Records (s.dirs tlsConfig.cacheDir) n

end RenewalTicks
