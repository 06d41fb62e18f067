import PrismProxy.TransitionRuns
import PrismProxy.AcmeProvisionSteps

/-! # The two variants of provisioning against each other

Both are run on the same answers: the `k`-th call of each kind is answered the same and takes
as long, whichever variant makes it. Nothing else runs, so a sleep ends when it is due. The
wall clock is read once, for the sidecar, and reads the same. -/
namespace ProvisionAgreement

open TransitionRuns ProxyConfig CertificateCache AcmeProvision

/-- The calls a provisioning awaits. -/
inductive Op where
  | createDir | checkLock | createLock | account | newOrder | authorizations | bindServer
  | setReady | sleepOrder | refresh | certParams | generateKey | serializeCsr | finalize
  | sleepCert | certificate | writeCertTmp | writeKeyTmp | renameCert | renameKey
  | writeIssuedAt | unlock | removeCertTmp | removeKeyTmp
  deriving DecidableEq, Repr

def opOf : Pc → Option Op
  | .createDir => some .createDir
  | .checkLock => some .checkLock
  | .createLock => some .createLock
  | .account _ _ => some .account
  | .newOrder _ => some .newOrder
  | .authorizations => some .authorizations
  | .bindServer _ _ _ => some .bindServer
  | .setReady (_ :: _) => some .setReady
  | .sleepOrder _ _ => some .sleepOrder
  | .refresh _ => some .refresh
  | .certParams _ => some .certParams
  | .generateKey => some .generateKey
  | .serializeCsr _ => some .serializeCsr
  | .finalize _ => some .finalize
  | .sleepCert _ _ _ => some .sleepCert
  | .certificate _ _ => some .certificate
  | .writeCertTmp _ _ => some .writeCertTmp
  | .writeKeyTmp _ _ => some .writeKeyTmp
  | .renameCert _ _ => some .renameCert
  | .renameKey _ _ => some .renameKey
  | .writeIssuedAt _ _ => some .writeIssuedAt
  | .unlock _ => some .unlock
  | .removeCertTmp _ => some .removeCertTmp
  | .removeKeyTmp _ => some .removeKeyTmp
  | .collect _ _ _ | .setReady [] | .clearStore _ | .done _ => none

/-- The answer to the `k`-th call of a kind, and how many nanoseconds it takes. -/
structure Script where
  reply : Op → ℕ → Reply
  delay : Op → ℕ → ℕ

structure State where
  world : World
  pc : Pc
  calls : Op → ℕ

def wakeOf : Pc → ℕ
  | .sleepOrder _ wake | .sleepCert _ _ wake => wake
  | _ => 0

def replyOf (script : Script) (pc : Pc) (op : Op) (k : ℕ) : Reply :=
  match pc with
  | .sleepOrder _ _ | .sleepCert _ _ _ => .proceed
  | _ => script.reply op k

def State.arrive (s : State) (script : Script) (op : Op) : World :=
  { s.world with
    instant := max s.world.instant (wakeOf s.pc) + script.delay op (s.calls op) }

def next (script : Script) (call : Call) (s : State) : Unit → Option State
  | () =>
    match opOf s.pc with
    | none => (step call s.world s.pc .proceed).map fun (w, pc) => ⟨w, pc, s.calls⟩
    | some op =>
      (step call (s.arrive script op) s.pc (replyOf script s.pc op (s.calls op))).map
        fun (w, pc) => ⟨w, pc, Function.update s.calls op (s.calls op + 1)⟩

def start (world : World) : State := ⟨world, .createDir, fun _ => 0⟩

/-- Ok with the same certificate and key, or both an error. -/
def SameKind : Except ProxyError Issued → Except ProxyError Issued → Prop
  | .ok issued, .ok issued' => issued = issued'
  | .error _, .error _ => True
  | _, _ => False

/-- What callers and the cache directory see of two finished calls. -/
structure Agree (result result' : Except ProxyError Issued) (files files' : CacheDir) :
    Prop where
  kind : SameKind result result'
  files : files = files'

/-- The branches where the two have drifted apart, seen from the store variant: a look that
finds no certificate returns within 60 s of the deadline's start, and the sidecar is written. -/
def onTime (script : Script) (t : State) : Bool :=
  match t.pc with
  | .certificate _ (some deadline) =>
    match script.reply .certificate (t.calls .certificate) with
    | .certificate (.ok none) => decide ((t.arrive script .certificate).instant ≤ deadline)
    | _ => true
  | .writeIssuedAt _ _ =>
    match script.reply .writeIssuedAt (t.calls .writeIssuedAt) with
    | .fs .ok => true
    | _ => false
  | _ => true

def Plain : Pc → Prop
  | .createDir | .checkLock | .createLock | .account _ _ | .newOrder _ | .authorizations
  | .setReady _ | .certParams _ | .generateKey | .serializeCsr _ | .finalize _
  | .writeCertTmp _ _ | .writeKeyTmp _ _ | .renameCert _ _ | .renameKey _ _
  | .writeIssuedAt _ _ => True
  | _ => False

/-- Where `provision` stands at time `i` and the store variant at time `j`. Deadlines of the
order are equally far away; those of the certificate are the store variant's alone. -/
inductive Beside (i j : ℕ) : Pc → Pc → Prop where
  | plain (pc) (h : Plain pc) : Beside i j pc pc
  | collect (todo m m' urls) : Beside i j (.collect todo m urls) (.collect todo m' urls)
  | binding (listen m urls) : Beside i j (.bindServer listen m urls) (.setReady urls)
  | sleepOrder (d d' wake wake') (hd : d + j = d' + i) (hw : wake + j = wake' + i) :
    Beside i j (.sleepOrder d wake) (.sleepOrder d' wake')
  | refresh (d d') (hd : d + j = d' + i) : Beside i j (.refresh d) (.refresh d')
  | sleepCert (keyPem d wake wake') :
    Beside i j (.sleepCert keyPem none wake) (.sleepCert keyPem (some d) wake')
  | certificate (keyPem d) : Beside i j (.certificate keyPem none) (.certificate keyPem (some d))
  | unlock (r r') (h : SameKind r r') : Beside i j (.unlock r) (.unlock r')
  | removeCertTmp (r r') (h : SameKind r r') : Beside i j (.removeCertTmp r) (.removeCertTmp r')
  | removeKeyTmp (r r') (h : SameKind r r') : Beside i j (.removeKeyTmp r) (.removeKeyTmp r')
  | clearing (r r') (h : SameKind r r') : Beside i j (.done r) (.clearStore r')
  | done (r r') (h : SameKind r r') : Beside i j (.done r) (.done r')

structure Matched (o o' : World × Pc) : Prop where
  files : o.1.files = o'.1.files
  wall : o.1.wall = o'.1.wall
  pc : Beside o.1.instant o'.1.instant o.2 o'.2

section Calls

variable (listen : String) (tlsConfig : TlsConfig)

def direct : Call := ⟨.provision listen, tlsConfig⟩

def stored : Call := ⟨.provisionWithStore, tlsConfig⟩

variable {listen tlsConfig} {w w' : World}

theorem matched_fail (hf : w.files = w'.files) (hw : w.wall = w'.wall) (m m' : String) :
    Matched (fail (direct listen tlsConfig) w m) (fail (stored tlsConfig) w' m') :=
  ⟨hf, hw, .unlock _ _ trivial⟩

theorem matched_attempt {α : Type} {what what' : String} {r : Except String α}
    {k k' : α → World × Pc} (hf : w.files = w'.files) (hw : w.wall = w'.wall)
    (hk : ∀ a, Matched (k a) (k' a)) :
    Matched (attempt (direct listen tlsConfig) w what r k)
      (attempt (stored tlsConfig) w' what' r k') := by
  cases r with
  | ok a => exact hk a
  | error e => exact matched_fail hf hw _ _

theorem matched_attemptFs {what : String} {pc : Pc} (hpc : Plain pc)
    {r : Option (Except String Unit × CacheDir)} {o o' : World × Pc} (hw : w.wall = w'.wall)
    (h : attemptFs (direct listen tlsConfig) w what pc r = some o)
    (h' : attemptFs (stored tlsConfig) w' what pc r = some o') : Matched o o' := by
  obtain ⟨⟨res, files⟩, rfl, rfl⟩ := Option.map_eq_some_iff.mp h
  cases h'
  exact matched_attempt rfl hw fun _ => ⟨rfl, hw, .plain pc hpc⟩

theorem matched_collectStep (hf : w.files = w'.files) (hw : w.wall = w'.wall)
    (auth : Authorization) (todo : List Authorization) (m m' : ChallengeMap)
    (urls : List String) :
    Matched (collectStep (direct listen tlsConfig) w auth todo m urls)
      (collectStep (stored tlsConfig) w' auth todo m' urls) := by
  unfold collectStep
  cases auth.challenges.find? fun c => c.type == .http01 with
  | none => exact matched_fail hf hw _ _
  | some c => exact ⟨hf, hw, .collect ..⟩

theorem matched_afterRefresh (hf : w.files = w'.files) (hw : w.wall = w'.wall) {d d' : ℕ}
    (hd : d + w'.instant = d' + w.instant) (st : OrderStatus) :
    Matched (afterRefresh (direct listen tlsConfig) w d st)
      (afterRefresh (stored tlsConfig) w' d' st) := by
  have hlate : d < w.instant ↔ d' < w'.instant := by omega
  cases st
  case ready => exact ⟨hf, hw, .plain _ trivial⟩
  case invalid => exact matched_fail hf hw _ _
  all_goals
    simp only [afterRefresh, hlate]
    split
    · exact matched_fail hf hw _ _
    · exact ⟨hf, hw, .sleepOrder _ _ _ _ hd (by simp only; omega)⟩

theorem matched_afterCertificate (hf : w.files = w'.files) (hw : w.wall = w'.wall)
    (keyPem : String) {d : ℕ} {cert : Option String} (hd : cert = none → w'.instant ≤ d) :
    Matched (afterCertificate (direct listen tlsConfig) w keyPem none cert)
      (afterCertificate (stored tlsConfig) w' keyPem (some d) cert) := by
  cases cert with
  | some certPem => exact ⟨hf, hw, .plain _ trivial⟩
  | none =>
    simp only [afterCertificate, if_neg (Nat.not_lt.mpr (hd rfl))]
    exact ⟨hf, hw, .sleepCert ..⟩

theorem plain_matched {pc : Pc} {r : Reply} {o o' : World × Pc} (hpc : Plain pc)
    (hf : w.files = w'.files) (hw : w.wall = w'.wall)
    (hside : ∀ certPem keyPem, pc = .writeIssuedAt certPem keyPem → r = .fs .ok)
    (h : step (direct listen tlsConfig) w pc r = some o)
    (h' : step (stored tlsConfig) w' pc r = some o') : Matched o o' := by
  cases pc <;> try exact absurd hpc id
  case createDir =>
    cases r <;> try cases h
    rename_i res
    cases res with
    | ok => cases h; cases h'; exact ⟨hf, hw, .plain _ trivial⟩
    | error e => cases h; cases h'; exact ⟨hf, hw, .done _ _ trivial⟩
  case checkLock =>
    cases r <;> try cases h
    obtain ⟨locked, hlocked, rfl⟩ := Option.map_eq_some_iff.mp h
    simp only [step, ← hf, hlocked, Option.map_some, Option.some.injEq] at h'
    subst h'
    cases locked with
    | true => exact ⟨hf, hw, .done _ _ trivial⟩
    | false => exact ⟨hf, hw, .plain _ trivial⟩
  case createLock =>
    cases r <;> try cases h
    obtain ⟨⟨res, files⟩, hwrite, rfl⟩ := Option.map_eq_some_iff.mp h
    simp only [step, ← hf, hwrite, Option.map_some, Option.some.injEq] at h'
    subst h'
    cases res with
    | ok => exact ⟨rfl, hw, .plain _ trivial⟩
    | error e => exact ⟨rfl, hw, .done _ _ trivial⟩
  case authorizations =>
    cases r <;> try cases h
    cases h'
    exact matched_attempt hf hw fun as => ⟨hf, hw, .collect ..⟩
  case setReady urls =>
    cases urls with
    | nil =>
      cases r <;> try cases h
      cases h'
      exact ⟨hf, hw, .sleepOrder _ _ _ _ (by simp only; omega) (by simp only; omega)⟩
    | cons url urls =>
      cases r <;> try cases h
      cases h'
      exact matched_attempt hf hw fun _ => ⟨hf, hw, .plain _ trivial⟩
  case finalize keyPem =>
    cases r <;> try cases h
    cases h'
    exact matched_attempt hf hw fun _ => ⟨hf, hw, .sleepCert ..⟩
  case writeCertTmp | writeKeyTmp | renameCert | renameKey =>
    cases r <;> try cases h
    all_goals
      simp only [step, hf] at h
      exact matched_attemptFs (by trivial) hw h h'
  case writeIssuedAt certPem keyPem =>
    obtain rfl := hside certPem keyPem rfl
    cases h
    cases h'
    refine ⟨?_, hw, .unlock _ _ rfl⟩
    simp only [hf, hw]
    rfl
  all_goals
    cases r <;> try cases h
    cases h'
    exact matched_attempt hf hw fun _ => ⟨hf, hw, .plain _ trivial⟩

/-- The places of `provision` from which both step: one has a server to bind, the other a store
to clear. -/
def Together : Pc → Prop
  | .bindServer _ _ _ | .done _ => False
  | _ => True

theorem step_matched {pc pc' : Pc} {r : Reply} {o o' : World × Pc} (hf : w.files = w'.files)
    (hw : w.wall = w'.wall) (hp : Beside w.instant w'.instant pc pc') (htogether : Together pc)
    (hcert : ∀ keyPem d, pc' = .certificate keyPem (some d) → r = .certificate (.ok none) →
      w'.instant ≤ d)
    (hside : ∀ certPem keyPem, pc' = .writeIssuedAt certPem keyPem → r = .fs .ok)
    (h : step (direct listen tlsConfig) w pc r = some o)
    (h' : step (stored tlsConfig) w' pc' r = some o') : Matched o o' := by
  cases hp with
  | plain pc hpc => exact plain_matched hpc hf hw hside h h'
  | binding l m urls => exact absurd htogether id
  | clearing res res' hres => exact absurd htogether id
  | done res res' hres => exact absurd htogether id
  | collect todo m m' urls =>
    cases todo with
    | nil =>
      cases r <;> cases h
      cases h'
      exact ⟨hf, hw, .binding ..⟩
    | cons auth todo =>
      cases r <;> cases h
      cases h'
      exact matched_collectStep hf hw ..
  | sleepOrder d d' wake wake' hd hwake =>
    cases r <;> try cases h
    obtain ⟨_, ho⟩ := Option.ite_none_right_eq_some.mp h
    obtain ⟨_, ho'⟩ := Option.ite_none_right_eq_some.mp h'
    cases ho
    cases ho'
    exact ⟨hf, hw, .refresh _ _ hd⟩
  | refresh d d' hd =>
    cases r <;> try cases h
    cases h'
    exact matched_attempt hf hw fun st => matched_afterRefresh hf hw hd st
  | sleepCert keyPem d wake wake' =>
    cases r <;> try cases h
    obtain ⟨_, ho⟩ := Option.ite_none_right_eq_some.mp h
    obtain ⟨_, ho'⟩ := Option.ite_none_right_eq_some.mp h'
    cases ho
    cases ho'
    exact ⟨hf, hw, .certificate ..⟩
  | certificate keyPem d =>
    cases r <;> try cases h
    rename_i res
    cases h'
    cases res with
    | error e => exact matched_fail hf hw _ _
    | ok cert =>
      refine matched_afterCertificate hf hw keyPem fun hnone => ?_
      exact hcert keyPem d rfl (by rw [hnone])
  | unlock res res' hres =>
    cases r <;> try cases h
    obtain ⟨files, hremove, rfl⟩ := Option.map_eq_some_iff.mp h
    simp only [step, ← hf, hremove, Option.map_some, Option.some.injEq] at h'
    subst h'
    cases res <;> cases res' <;> try exact absurd hres id
    · exact ⟨rfl, hw, .removeCertTmp _ _ hres⟩
    · exact ⟨rfl, hw, .clearing _ _ hres⟩
  | removeCertTmp res res' hres =>
    cases r <;> try cases h
    obtain ⟨files, hremove, rfl⟩ := Option.map_eq_some_iff.mp h
    simp only [step, ← hf, hremove, Option.map_some, Option.some.injEq] at h'
    subst h'
    exact ⟨rfl, hw, .removeKeyTmp _ _ hres⟩
  | removeKeyTmp res res' hres =>
    cases r <;> try cases h
    obtain ⟨files, hremove, rfl⟩ := Option.map_eq_some_iff.mp h
    simp only [step, ← hf, hremove, Option.map_some, Option.some.injEq] at h'
    subst h'
    exact ⟨rfl, hw, .clearing _ _ hres⟩

end Calls

structure Alike (s t : State) : Prop where
  matched : Matched (s.world, s.pc) (t.world, t.pc)
  calls : ∀ op, op ≠ .bindServer → s.calls op = t.calls op

theorem Beside.opOf_eq {i j : ℕ} {pc pc' : Pc} (h : Beside i j pc pc') (ht : Together pc) :
    opOf pc = opOf pc' := by
  cases h with
  | binding | clearing | done => exact absurd ht id
  | _ => rfl

theorem Beside.replyOf_eq {i j : ℕ} {pc pc' : Pc} (h : Beside i j pc pc') (ht : Together pc)
    (script : Script) (op : Op) (k : ℕ) : replyOf script pc op k = replyOf script pc' op k := by
  cases h with
  | binding | clearing | done => exact absurd ht id
  | _ => rfl

theorem Beside.arrive {i j : ℕ} {pc pc' : Pc} (h : Beside i j pc pc') (delay : ℕ) :
    Beside (max i (wakeOf pc) + delay) (max j (wakeOf pc') + delay) pc pc' := by
  cases h with
  | plain pc hpc => exact .plain pc hpc
  | collect todo m m' urls => exact .collect ..
  | binding l m urls => exact .binding ..
  | sleepOrder d d' wake wake' hd hw =>
    simp only [wakeOf]
    exact .sleepOrder _ _ _ _ (by omega) (by omega)
  | refresh d d' hd =>
    simp only [wakeOf]
    exact .refresh _ _ (by omega)
  | sleepCert key d wake wake' => exact .sleepCert ..
  | certificate key d => exact .certificate ..
  | unlock r r' hr => exact .unlock _ _ hr
  | removeCertTmp r r' hr => exact .removeCertTmp _ _ hr
  | removeKeyTmp r r' hr => exact .removeKeyTmp _ _ hr
  | clearing r r' hr => exact .clearing _ _ hr
  | done r r' hr => exact .done _ _ hr

theorem opOf_together {i j : ℕ} {pc pc' : Pc} {op : Op} (h : Beside i j pc pc')
    (ht : Together pc) (hop : opOf pc = some op) : op ≠ .bindServer := by
  rintro rfl
  cases h with
  | plain pc hpc =>
    cases pc <;> try exact absurd hpc id
    all_goals first
      | cases hop
      | (rename_i urls; cases urls <;> cases hop)
  | binding => exact absurd ht id
  | _ => cases hop

variable {listen : String} {tlsConfig : TlsConfig} {script : Script}

theorem onTime_certificate {t : State} {keyPem : String} {d : ℕ}
    (hp : t.pc = .certificate keyPem (some d)) (h : onTime script t = true)
    (hr : script.reply .certificate (t.calls .certificate) = .certificate (.ok none)) :
    (t.arrive script .certificate).instant ≤ d := by
  simpa only [onTime, hp, hr, decide_eq_true_eq] using h

theorem onTime_writeIssuedAt {t : State} {certPem keyPem : String}
    (hp : t.pc = .writeIssuedAt certPem keyPem) (h : onTime script t = true) :
    script.reply .writeIssuedAt (t.calls .writeIssuedAt) = .fs .ok := by
  simp only [onTime, hp] at h
  split at h
  · assumption
  · cases h

theorem alike_next {s t s' t' : State} (h : Alike s t) (htogether : Together s.pc)
    (htime : onTime script t = true) (hs : next script (direct listen tlsConfig) s () = some s')
    (ht : next script (stored tlsConfig) t () = some t') : Alike s' t' := by
  obtain ⟨⟨hf, hw, hpc⟩, hcalls⟩ := h
  have hop : opOf s.pc = opOf t.pc := hpc.opOf_eq htogether
  cases ho : opOf s.pc with
  | none =>
    simp only [next, ho] at hs
    simp only [next, ← hop, ho] at ht
    obtain ⟨o, hstep, rfl⟩ := Option.map_eq_some_iff.mp hs
    obtain ⟨o', hstep', rfl⟩ := Option.map_eq_some_iff.mp ht
    rw [hop] at ho
    refine ⟨step_matched hf hw hpc htogether ?_ ?_ hstep hstep', hcalls⟩
    · intro keyPem d (hp : t.pc = _) _
      rw [hp] at ho
      cases ho
    · intro certPem keyPem (hp : t.pc = _)
      rw [hp] at ho
      cases ho
  | some op =>
    simp only [next, ho] at hs
    simp only [next, ← hop, ho] at ht
    obtain ⟨o, hstep, rfl⟩ := Option.map_eq_some_iff.mp hs
    obtain ⟨o', hstep', rfl⟩ := Option.map_eq_some_iff.mp ht
    have hserver := opOf_together hpc htogether ho
    have hcount := hcalls op hserver
    rw [hcount, hpc.replyOf_eq htogether] at hstep
    have harrive := hpc.arrive (script.delay op (t.calls op))
    rw [hop] at ho
    have hfiles : (s.arrive script op).files = (t.arrive script op).files := hf
    refine ⟨step_matched hfiles hw ?_ htogether ?_ ?_ hstep hstep', ?_⟩
    · simpa only [State.arrive, hcount] using harrive
    · intro keyPem d (hp : t.pc = _) hr
      rw [hp] at ho hr
      cases ho
      exact onTime_certificate hp htime hr
    · intro certPem keyPem (hp : t.pc = _)
      rw [hp] at ho
      cases ho
      simpa only [hp, replyOf] using onTime_writeIssuedAt hp htime
    · intro op' hop'
      by_cases heq : op' = op
      · simp [heq, hcount]
      · simp [heq, hcalls op' hop']

theorem next_done {call : Call} {s : State} {result : Except ProxyError Issued}
    (hp : s.pc = .done result) : next script call s () = none := by
  simp [next, hp, opOf, step]

theorem run_done {call : Call} {s u : State} {tr : List (State × Unit)}
    {result : Except ProxyError Issued} (h : Run (next script call) s tr u)
    (hp : s.pc = .done result) : u = s := by
  cases tr with
  | nil => exact h.eq_of_nil
  | cons p tr =>
    obtain ⟨_, t, hn, _⟩ := h.head
    cases (next_done hp).symm.trans hn

theorem not_together {pc : Pc} (h : ¬ Together pc) :
    (∃ l m urls, pc = .bindServer l m urls) ∨ ∃ result, pc = .done result := by
  cases pc with
  | bindServer l m urls => exact .inl ⟨l, m, urls, rfl⟩
  | done result => exact .inr ⟨result, rfl⟩
  | _ => exact absurd trivial h

theorem Alike.not_together {s t : State} {result' : Except ProxyError Issued} (h : Alike s t)
    (hp : t.pc = .done result') : ¬ Together s.pc := by
  have hpc := h.matched.pc
  simp only [hp] at hpc
  generalize s.pc = pc at hpc
  cases hpc with
  | plain _ hplain => exact absurd hplain id
  | done => exact id

theorem alike_bind {s t s' : State} {l : String} {m : ChallengeMap} {urls : List String}
    (h : Alike s t) (hbind : ∀ k, script.reply .bindServer k = .unit (.ok ()))
    (hp : s.pc = .bindServer l m urls)
    (hs : next script (direct listen tlsConfig) s () = some s') : Alike s' t := by
  obtain ⟨⟨hf, hw, hpc⟩, hcalls⟩ := h
  simp only [next, hp, opOf, replyOf, hbind] at hs
  cases hs
  refine ⟨⟨hf, hw, ?_⟩, fun op hop => by simp [hop, hcalls op hop]⟩
  simp only [hp] at hpc
  generalize ht : t.pc = pc at hpc
  cases hpc with
  | plain _ hplain => exact absurd hplain id
  | binding => simpa only [ht] using .plain (.setReady urls) trivial

theorem alike_done {s t v : State} {tr : List (State × Unit)}
    {result result' : Except ProxyError Issued} (h : Alike s t) (hp : s.pc = .done result)
    (hrun : Run (next script (stored tlsConfig)) t tr v) (hv : v.pc = .done result') :
    Agree result result' s.world.files v.world.files := by
  obtain ⟨⟨hf, -, hpc⟩, -⟩ := h
  simp only [hp] at hf hpc
  generalize ht : t.pc = pc at hpc
  cases hpc with
  | plain _ hplain => exact absurd hplain id
  | clearing _ r hr =>
    cases tr with
    | nil =>
      obtain rfl := hrun.eq_of_nil
      cases ht.symm.trans hv
    | cons p tr =>
      obtain ⟨_, w, hn, hrest⟩ := hrun.head
      simp only [next, ht, opOf] at hn
      cases hn
      obtain rfl := run_done hrest rfl
      cases hv
      exact ⟨hr, hf⟩
  | done _ r hr =>
    obtain rfl := run_done hrun ht
    cases ht.symm.trans hv
    exact ⟨hr, hf⟩

theorem alike_run {s t u v : State} {tr tr' : List (State × Unit)}
    {result result' : Except ProxyError Issued} (h : Alike s t)
    (hbind : ∀ k, script.reply .bindServer k = .unit (.ok ()))
    (hrun : Run (next script (direct listen tlsConfig)) s tr u) (hu : u.pc = .done result)
    (hrun' : Run (next script (stored tlsConfig)) t tr' v) (hv : v.pc = .done result')
    (htime : Obeys (fun t _ => onTime script t = true) tr') :
    Agree result result' u.world.files v.world.files := by
  induction tr generalizing s t tr' with
  | nil =>
    obtain rfl := hrun.eq_of_nil
    exact alike_done h hu hrun' hv
  | cons p tr ih =>
    obtain ⟨_, s', hs, hrest⟩ := hrun.head
    by_cases htogether : Together s.pc
    · cases tr' with
      | nil =>
        obtain rfl := hrun'.eq_of_nil
        exact absurd htogether (h.not_together hv)
      | cons p' tr' =>
        obtain ⟨hp', t', ht, hrest'⟩ := hrun'.head
        obtain ⟨hnow, hlater⟩ := obeys_cons.mp htime
        rw [hp'] at hnow
        exact ih (alike_next h htogether hnow hs ht) hrest hrest' hlater
    · rcases not_together htogether with ⟨l, m, urls, hp⟩ | ⟨r, hp⟩
      · exact ih (alike_bind h hbind hp hs) hrest hrun' htime
      · cases (next_done hp).symm.trans hs

theorem late_next {t t' : State} (htime : ¬ onTime script t = true)
    (ht : next script (stored tlsConfig) t () = some t') :
    ∃ e, t'.pc.phase = .returning (.error e) := by
  cases hp : t.pc with
  | certificate keyPem deadline =>
    cases deadline with
    | none => simp [onTime, hp] at htime
    | some d =>
      simp only [onTime, hp] at htime
      split at htime
      · rename_i hr
        have hlate : d < (t.arrive script .certificate).instant := by simpa using htime
        simp only [next, hp, opOf, replyOf, hr, step, attempt, afterCertificate, if_pos hlate] at ht
        cases ht
        exact ⟨_, rfl⟩
      · exact absurd rfl htime
  | writeIssuedAt certPem keyPem =>
    simp only [onTime, hp] at htime
    simp only [next, hp, opOf, replyOf] at ht
    obtain ⟨o, hstep, rfl⟩ := Option.map_eq_some_iff.mp ht
    obtain ⟨_, fs, hr, ⟨_, hok⟩ | ⟨_, _, herr⟩⟩ := writingIssuedAt_step rfl hstep
    · simp [hr, hok rfl] at htime
    · exact herr
  | _ => simp [onTime, hp] at htime

theorem returning_run {call : Call} {s u : State} {tr : List (State × Unit)}
    {result : Except ProxyError Issued} (h : Run (next script call) s tr u)
    (hp : s.pc.phase = .returning result) : u.pc.phase = .returning result := by
  refine h.invariant (I := fun s => s.pc.phase = .returning result) ?_ hp
  intro s () t hs hn
  unfold next at hn
  split at hn
  all_goals
    obtain ⟨o, hstep, rfl⟩ := Option.map_eq_some_iff.mp hn
    exact (returning_step hs hstep).2

theorem late_run {s u : State} {tr : List (State × Unit)} {result : Except ProxyError Issued}
    (h : Run (next script (stored tlsConfig)) s tr u) (hu : u.pc = .done result)
    (htime : ¬ Obeys (fun t _ => onTime script t = true) tr) : ∃ e, result = .error e := by
  simp only [Obeys, not_forall] at htime
  obtain ⟨p, hp, hlate⟩ := htime
  obtain ⟨a, b, rfl⟩ := List.append_of_mem hp
  obtain ⟨-, t, hn, hrest⟩ := h.cut
  obtain ⟨e, he⟩ := late_next hlate hn
  have hphase := returning_run hrest he
  rw [hu] at hphase
  exact ⟨e, by simpa [Pc.phase] using hphase⟩

theorem alike_start {w w' : World} (hf : w.files = w'.files) (hw : w.wall = w'.wall) :
    Alike (start w) (start w') :=
  ⟨⟨hf, hw, .plain _ trivial⟩, fun _ _ => rfl⟩

/-- Two calls that both return agree if the store variant is never late with a certificate and
can write the sidecar; when `provision` returns a certificate, only then. -/
theorem provisions_agree {w w' : World} {u v : State} {tr tr' : List (State × Unit)}
    {result result' : Except ProxyError Issued} (hf : w.files = w'.files) (hw : w.wall = w'.wall)
    (hbind : ∀ k, script.reply .bindServer k = .unit (.ok ()))
    (hrun : Run (next script (direct listen tlsConfig)) (start w) tr u)
    (hrun' : Run (next script (stored tlsConfig)) (start w') tr' v)
    (hu : u.pc = .done result) (hv : v.pc = .done result') :
    (Obeys (fun t _ => onTime script t = true) tr' →
      Agree result result' u.world.files v.world.files) ∧
    ∀ issued, result = .ok issued → Agree result result' u.world.files v.world.files →
      Obeys (fun t _ => onTime script t = true) tr' := by
  refine ⟨alike_run (alike_start hf hw) hbind hrun hu hrun' hv, ?_⟩
  rintro issued rfl hagree
  by_contra hlate
  obtain ⟨e, rfl⟩ := late_run hrun' hv hlate
  exact hagree.kind

/-- A server that grants everything, with one look at the order and one at the certificate too
early; the sidecar's write ends as told. -/
def granting (sidecar : FsReply) : Script where
  reply
    | .authorizations, _ => .authorizations (.ok [⟨[⟨.http01, "token", "url", "token.key"⟩]⟩])
    | .refresh, k => .orderStatus (.ok (if k = 0 then .pending else .ready))
    | .generateKey, _ => .keyPair (.ok "KEY")
    | .certificate, k => .certificate (.ok (if k = 0 then none else some "CERT"))
    | .writeIssuedAt, _ => .fs sidecar
    | .checkLock, _ | .createLock, _ | .writeCertTmp, _ | .writeKeyTmp, _ | .renameCert, _
    | .renameKey, _ | .unlock, _ | .removeCertTmp, _ | .removeKeyTmp, _ => .fs .ok
    | .sleepOrder, _ | .sleepCert, _ => .proceed
    | _, _ => .unit (.ok ())
  delay _ _ := 1

def sampleWorld : World := ⟨fun _ => none, noChallenges, none, 0, 1700000000⟩

def sampleTls : TlsConfig :=
  ⟨"ops@example.com", "https://acme/directory", "/cache", ["example.com"]⟩

theorem provisions_agree_granted : ∃ tr tr' u v,
    Run (next (granting .ok) (direct "0.0.0.0:80" sampleTls)) (start sampleWorld) tr u ∧
    Run (next (granting .ok) (stored sampleTls)) (start sampleWorld) tr' v ∧
    u.pc = .done (.ok ("CERT", "KEY")) ∧ v.pc = .done (.ok ("CERT", "KEY")) ∧
    Agree (.ok ("CERT", "KEY")) (.ok ("CERT", "KEY")) u.world.files v.world.files := by
  obtain ⟨u, hr, hu⟩ := run_of_view (next (granting .ok) (direct "0.0.0.0:80" sampleTls))
    (start sampleWorld) (List.replicate 29 ()) State.pc (.done (.ok ("CERT", "KEY"))) rfl
  obtain ⟨v, hr', hv⟩ := run_of_view (next (granting .ok) (stored sampleTls))
    (start sampleWorld) (List.replicate 29 ()) State.pc (.done (.ok ("CERT", "KEY"))) rfl
  have htime : Obeys (fun t _ => onTime (granting .ok) t = true)
      (traceOf (next (granting .ok) (stored sampleTls)) (start sampleWorld)
        (List.replicate 29 ())) := obeys_of_all rfl
  exact ⟨_, _, u, v, hr, hr', hu, hv,
    (provisions_agree rfl rfl (fun _ => rfl) hr hr' hu hv).1 htime⟩

/-- The disk has no room for the sidecar: `provision` returns the certificate it has put in
place, the store variant an error. -/
theorem provisions_disagree : ¬ ∀ (listen : String) (tlsConfig : TlsConfig) (script : Script)
    (w : World) (tr tr' : List (State × Unit)) (u v : State)
    (result result' : Except ProxyError Issued),
    (∀ k, script.reply .bindServer k = .unit (.ok ())) →
    Run (next script (direct listen tlsConfig)) (start w) tr u →
    Run (next script (stored tlsConfig)) (start w) tr' v →
    u.pc = .done result → v.pc = .done result' →
    Agree result result' u.world.files v.world.files := by
  intro hall
  obtain ⟨u, hr, hu⟩ := run_of_view
    (next (granting (.failed "ENOSPC")) (direct "0.0.0.0:80" sampleTls)) (start sampleWorld)
    (List.replicate 29 ()) State.pc (.done (.ok ("CERT", "KEY"))) rfl
  obtain ⟨v, hr', hv⟩ := run_of_view (next (granting (.failed "ENOSPC")) (stored sampleTls))
    (start sampleWorld) (List.replicate 31 ()) State.pc
    (.done (.error (.acme "write issued_at: ENOSPC"))) rfl
  exact (hall _ _ (granting (.failed "ENOSPC")) sampleWorld _ _ u v _ _ (fun _ => rfl) hr hr' hu
    hv).kind

end ProvisionAgreement
