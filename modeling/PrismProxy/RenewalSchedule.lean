import PrismProxy.PeriodicRenewal
import PrismProxy.RenewalCoverage
import PrismProxy.RenewalTicks

/-! # When the renewal loop renews

The loop on its ticks is a `PeriodicRenewal`: what is kept is the time `issued_at` gives, as
long as there is a `cert.pem`. -/
namespace RenewalSchedule

open TransitionRuns ProxyConfig CertificateCache StatePublication RenewalTicks
open ProxyServer hiding State next
open AcmeProvision (Call Pc Phase World)

variable {H : Host}

def recorded (files : CacheDir) : ℕ := ((files .issuedAt).bind parseU64).getD 0

def kept (files : CacheDir) : Option ℕ :=
  if (files .cert).isSome then some (recorded files) else none

/-- A success that is not in the future is on record. -/
def Dated (files : CacheDir) (now : ℕ) : Prop := ∃ n, n ≤ now ∧ Records files n

theorem recorded_eq {files : CacheDir} {n : ℕ} (h : Records files n) (hn : n < 2 ^ 64) :
    recorded files = n := by
  rcases h with h | ⟨h, rfl⟩
  · rw [recorded, h, Option.bind_some, parseU64_toString hn, Option.getD_some]
  · rw [recorded, h]
    rfl

theorem Dated.records {files : CacheDir} {now : ℕ} (h : Dated files now) (hnow : now < 2 ^ 63) :
    recorded files ≤ now ∧ Records files (recorded files) := by
  obtain ⟨n, hle, hn⟩ := h
  rw [recorded_eq hn (by omega)]
  exact ⟨hle, hn⟩

theorem Dated.mono {files : CacheDir} {now later : ℕ} (h : Dated files now) (hle : now ≤ later) :
    Dated files later := by
  obtain ⟨n, hn, hrec⟩ := h
  exact ⟨n, by omega, hrec⟩

theorem kept_congr {files files' : CacheDir} (h : SameRecord files files') :
    kept files = kept files' := by
  unfold kept recorded
  rw [h.1, h.2]

theorem dated_congr {files files' : CacheDir} (h : SameRecord files files') {now : ℕ}
    (hd : Dated files' now) : Dated files now := by
  unfold Dated Records at hd ⊢
  rwa [h.2]

theorem dirNeedsRenewal_eq_due {files : CacheDir} {now : ℕ} (h : Dated files now)
    (hnow : now < 2 ^ 63) :
    dirNeedsRenewal files now = PeriodicRenewal.due renewalAge (kept files) now := by
  have hle := (h.records hnow).1
  unfold dirNeedsRenewal certNeedsRenewal kept
  cases hcert : (files .cert).isSome with
  | false => rfl
  | true =>
    have hsum : recorded files + renewalAge < 2 ^ 64 := by
      unfold renewalAge
      omega
    simp only [Bool.not_true, Bool.false_eq_true, if_false, if_true, PeriodicRenewal.due]
    rw [← recorded, Nat.mod_eq_of_lt hsum]

/-- There is a `cert.pem`, and the success on record is from within the attempt. -/
structure Renewed (begun wall : ℕ) (files : CacheDir) : Prop where
  cert : (files .cert).isSome
  issuedAt : ∃ n, begun ≤ n ∧ n ≤ wall ∧ files .issuedAt = some (toString n)

def Written (begun wall : ℕ) (files : CacheDir) : Phase → Prop
  | .renamingKey _ _ | .writingIssuedAt _ _ => (files .cert).isSome
  | .returning (.ok _) => Renewed begun wall files
  | _ => True

theorem Renewed.congr {begun wall wall' : ℕ} {files files' : CacheDir}
    (h : Renewed begun wall files) (hs : SameRecord files' files) (hw : wall ≤ wall') :
    Renewed begun wall' files' := by
  obtain ⟨n, hb, hn, hissued⟩ := h.issuedAt
  exact ⟨by rw [hs.1]; exact h.cert, n, hb, by omega, by rw [hs.2]; exact hissued⟩

theorem Written.congr {begun wall wall' : ℕ} {files files' : CacheDir} {phase : Phase}
    (h : Written begun wall files phase) (hs : SameRecord files' files) (hw : wall ≤ wall') :
    Written begun wall' files' phase := by
  cases phase with
  | renamingKey certPem keyPem =>
    simp only [Written] at h ⊢
    rwa [hs.1]
  | writingIssuedAt certPem keyPem =>
    simp only [Written] at h ⊢
    rwa [hs.1]
  | returning result =>
    cases result with
    | ok issued => exact Renewed.congr h hs hw
    | error e => trivial
  | _ => trivial

theorem removeFile_same {files files' : CacheDir} {f : CacheFile} {reply : FsReply}
    (h : removeFile files f reply = some files') (hc : f ≠ .cert) (hi : f ≠ .issuedAt) :
    SameRecord files' files := ⟨removeFile_other h hc.symm, removeFile_other h hi.symm⟩

theorem written_step {call : Call} {w w' : World} {pc pc' : Pc} {r : AcmeProvision.Reply}
    {begun : ℕ} (hv : call.variant = .provisionWithStore) (hb : begun ≤ w.wall)
    (hw : Written begun w.wall w.files pc.phase)
    (h : AcmeProvision.step call w pc r = some (w', pc')) :
    Written begun w.wall w'.files pc'.phase := by
  cases AcmeProvision.step_cases h with
  | certRenamed certPem keyPem fs files rename =>
    obtain ⟨content, _, rfl⟩ := renameFile_ok rename
    simp [Written, Pc.phase]
  | keyRenamed certPem keyPem fs files rename =>
    obtain ⟨content, _, rfl⟩ := renameFile_ok rename
    simpa [Written, Pc.phase] using hw
  | issuedAtWritten certPem keyPem fs res files write variant =>
    obtain rfl := variant hv
    have hcert : files .cert = w.files .cert := writeFile_other write (by decide)
    refine ⟨?_, w.wall, hb, Nat.le_refl _, writeFile_ok write⟩
    simp only [hcert]
    exact hw
  | succeeded issued fs files remove =>
    rw [AcmeProvision.finish_phase]
    exact hw.congr (removeFile_same remove (by decide) (by decide)) (Nat.le_refl _)
  | certTmpRemoved result fs files remove =>
    exact hw.congr (removeFile_same remove (by decide) (by decide)) (Nat.le_refl _)
  | keyTmpRemoved result fs files remove =>
    rw [AcmeProvision.finish_phase]
    exact hw.congr (removeFile_same remove (by decide) (by decide)) (Nat.le_refl _)
  | storeCleared result => exact hw
  | _ => trivial

def tickOf (t : Tick) : PeriodicRenewal.Tick where
  now := t.now
  outcome :=
    match t.outcome with
    | .skipped => .skipped
    | .failed => .failed
    | .renewed => .renewed (recorded t.left)

def entryOf (t : Tick) : Option ℕ × PeriodicRenewal.Tick := (kept t.found, tickOf t)

theorem tickOf_attempted (t : Tick) : (tickOf t).attempted = t.attempted := by
  unfold PeriodicRenewal.Tick.attempted Tick.attempted tickOf
  cases t.outcome <;> rfl

theorem tickOf_failed {t : Tick} : (tickOf t).outcome = .failed ↔ t.outcome = .failed := by
  unfold tickOf
  cases t.outcome <;> simp

theorem tickOf_renewed {t : Tick} {n : ℕ} :
    (tickOf t).outcome = .renewed n ↔ t.outcome = .renewed ∧ recorded t.left = n := by
  unfold tickOf
  cases t.outcome <;> simp

structure Setting where
  tlsConfig : TlsConfig
  origin : ℕ
  kept : Option ℕ

structure Around (s : ProxyServer.State H) : Prop where
  challengeStore : s.challengeStore = true
  main : s.main = .serving ∨ ∃ result, s.main = .returned result
  clock : s.wall < 2 ^ 63

/-- Between two ticks the interval is due a period after the last; at work the clock is within
the period of the tick. -/
structure OnTime (origin : ℕ) (s : State H) : Prop where
  idle : s.busy = false →
    s.deadline = origin + s.log.length * period ∧ s.server.wall ≤ s.deadline
  busy : s.busy = true →
    s.deadline = origin + (s.log.length + 1) * period ∧
      origin + s.log.length * period ≤ s.server.wall ∧ s.server.wall < s.deadline

structure Logged (t : Tick) : Prop where
  now : t.now < 2 ^ 63
  found : Dated t.found t.now
  left : t.outcome = .renewed → ∃ n, n < 2 ^ 63 ∧ Records t.left n

structure Settled (S : Setting) (s : State H) : Prop where
  run : Run (PeriodicRenewal.next renewalAge) S.kept (s.log.map entryOf)
    (kept (s.server.dirs S.tlsConfig.cacheDir))
  dated : Dated (s.server.dirs S.tlsConfig.cacheDir) s.server.wall

/-- The tick at work found a renewal due. -/
structure Attempting (S : Setting) (s : State H) : Prop where
  run : Run (PeriodicRenewal.next renewalAge) S.kept (s.log.map entryOf) (kept s.found)
  dated : Dated s.found s.now
  due : dirNeedsRenewal s.found s.now = true
  begun : S.origin + s.log.length * period ≤ s.now
  past : s.now ≤ s.server.wall

/-- What holds at each place of the loop. -/
def Place (S : Setting) (s : State H) : Option (RenewalPc H) → Prop
  | some .tick | some .readConfig => Settled S s
  | some (.checkCert r) => r.tlsConfig = S.tlsConfig ∧ Settled S s
  | some (.checkIssuedAt r) =>
    r.tlsConfig = S.tlsConfig ∧ Settled S s ∧ (s.server.dirs S.tlsConfig.cacheDir .cert).isSome
  | some (.provisioning r call pc) =>
    r.tlsConfig = S.tlsConfig ∧ call.variant = .provisionWithStore ∧ Attempting S s ∧
      Written s.now s.server.wall (s.server.dirs S.tlsConfig.cacheDir) pc.phase
  | some (.building r _) =>
    r.tlsConfig = S.tlsConfig ∧ Attempting S s ∧
      Renewed s.now s.server.wall (s.server.dirs S.tlsConfig.cacheDir)
  | none => False

structure Invariant (S : Setting) (s : State H) : Prop where
  around : Around s.server
  onTime : OnTime S.origin s
  logged : ∀ t ∈ s.log, Logged t
  grid : PeriodicRenewal.OnGrid S.origin period (s.log.map entryOf)
  place : Place S s s.server.renewal

variable {S : Setting} {s : State H} {v : ProxyServer.State H}

theorem Invariant.placed {pc : Option (RenewalPc H)} (h : Invariant S s)
    (hr : s.server.renewal = pc) : Place S s pc := by
  rw [← hr]
  exact h.place

theorem observe_server : (s.observe v).server = v := by
  unfold State.observe
  split <;> rfl

theorem observe_same (h : v.renewal = s.server.renewal) : s.observe v = { s with server := v } := by
  unfold State.observe
  rw [h]
  rcases s.server.renewal with _ | pc
  · rfl
  · cases pc <;> rfl

theorem observe_goes {pc pc' : RenewalPc H} (hr : s.server.renewal = some pc)
    (hv : v.renewal = some pc')
    (hpc : (∃ r call q, pc = .provisioning r call q) ∨ ∃ r b, pc = .building r b)
    (hgo : pc' ≠ .tick) : s.observe v = { s with server := v } := by
  unfold State.observe
  rw [hr, hv]
  rcases hpc with ⟨r, call, q, rfl⟩ | ⟨r, b, rfl⟩ <;>
  · cases pc' with
    | tick => exact absurd rfl hgo
    | _ => rfl

theorem busy_congr {t : State H} (h : t.server.renewal = s.server.renewal) : t.busy = s.busy := by
  unfold State.busy
  rw [h]

theorem Around.renewalEffect {t : ProxyServer.State H} (h : Around t) (eff : RenewalEffect H) :
    Around (t.renewalEffect eff) := by
  cases eff <;> exact ⟨h.challengeStore, h.main, h.clock⟩

theorem Around.no_main {t : ProxyServer.State H} (h : Around t) (r : Reply) :
    mainStep t t.main r = none := by
  rcases h.main with hm | ⟨result, hm⟩ <;> rw [hm]
  · exact RenewalCoverage.serving_mainStep
  · rcases r with _ | a | _ <;> try rfl
    cases a <;> rfl

theorem Settled.frame (h : Settled S s)
    (hd : SameRecord (v.dirs S.tlsConfig.cacheDir) (s.server.dirs S.tlsConfig.cacheDir))
    (hw : s.server.wall ≤ v.wall) : Settled S { s with server := v } where
  run := by
    simp only [kept_congr hd]
    exact h.run
  dated := (dated_congr hd h.dated).mono hw

theorem Attempting.due_kept (h : Attempting S s) (hclock : s.server.wall < 2 ^ 63) :
    PeriodicRenewal.due renewalAge (kept s.found) s.now = true := by
  rw [← dirNeedsRenewal_eq_due h.dated (Nat.lt_of_le_of_lt h.past hclock), h.due]

theorem Attempting.frame (h : Attempting S s) (hw : s.server.wall ≤ v.wall) :
    Attempting S { s with server := v } :=
  ⟨h.run, h.dated, h.due, h.begun, Nat.le_trans h.past hw⟩

theorem Place.frame {pc : Option (RenewalPc H)} (h : Place S s pc)
    (hd : SameRecord (v.dirs S.tlsConfig.cacheDir) (s.server.dirs S.tlsConfig.cacheDir))
    (hw : s.server.wall ≤ v.wall) : Place S { s with server := v } pc := by
  rcases pc with _ | pc
  · exact h
  cases pc with
  | tick => exact Settled.frame h hd hw
  | readConfig => exact Settled.frame h hd hw
  | checkCert r => exact ⟨h.1, h.2.frame hd hw⟩
  | checkIssuedAt r =>
    obtain ⟨hr, hs, hcert⟩ := h
    refine ⟨hr, hs.frame hd hw, ?_⟩
    simp only [hd.1]
    exact hcert
  | provisioning r call pc =>
    obtain ⟨hr, hcall, ha, hwritten⟩ := h
    exact ⟨hr, hcall, ha.frame hw, hwritten.congr hd hw⟩
  | building r b =>
    obtain ⟨hr, ha, hrenewed⟩ := h
    exact ⟨hr, ha.frame hw, hrenewed.congr hd hw⟩

theorem Invariant.frame (h : Invariant S s) (hr : v.renewal = s.server.renewal)
    (ha : Around v)
    (hd : SameRecord (v.dirs S.tlsConfig.cacheDir) (s.server.dirs S.tlsConfig.cacheDir))
    (hw : s.server.wall ≤ v.wall) (hidle : s.busy = false → v.wall ≤ s.deadline)
    (hbusy : s.busy = true → v.wall < s.deadline) : Invariant S (s.observe v) := by
  rw [observe_same hr]
  refine ⟨ha, ⟨?_, ?_⟩, h.logged, h.grid, ?_⟩
  · intro hb
    rw [busy_congr (s := s) hr] at hb
    exact ⟨(h.onTime.idle hb).1, hidle hb⟩
  · intro hb
    rw [busy_congr (s := s) hr] at hb
    obtain ⟨hdead, hbegun, _⟩ := h.onTime.busy hb
    exact ⟨hdead, Nat.le_trans hbegun hw, hbusy hb⟩
  · show Place S _ v.renewal
    rw [hr]
    exact h.place.frame hd hw

theorem Invariant.beside (h : Invariant S s) (hr : v.renewal = s.server.renewal) (ha : Around v)
    (hd : SameRecord (v.dirs S.tlsConfig.cacheDir) (s.server.dirs S.tlsConfig.cacheDir))
    (hw : v.wall = s.server.wall) : Invariant S (s.observe v) := by
  refine h.frame hr ha hd (Nat.le_of_eq hw.symm) ?_ ?_
  · intro hb
    rw [hw]
    exact (h.onTime.idle hb).2
  · intro hb
    rw [hw]
    exact (h.onTime.busy hb).2.2

theorem Invariant.work {t : State H} (h : Invariant S s) (hb : s.busy = true)
    (ht : t.busy = true) (hlog : t.log = s.log) (hdead : t.deadline = s.deadline)
    (ha : Around t.server) (hw : t.server.wall = s.server.wall)
    (hp : Place S t t.server.renewal) : Invariant S t := by
  refine ⟨ha, ⟨?_, ?_⟩, ?_, ?_, hp⟩
  · intro hidle
    rw [ht] at hidle
    cases hidle
  · intro _
    rw [hlog, hdead, hw]
    exact h.onTime.busy hb
  · rw [hlog]
    exact h.logged
  · rw [hlog]
    exact h.grid

theorem Invariant.finish (h : Invariant S s) (hb : s.busy = true) {found : CacheDir} {now : ℕ}
    {outcome : RenewalTicks.Outcome} (hr : v.renewal = some .tick) (ha : Around v)
    (hw : v.wall = s.server.wall)
    (hrun : Run (PeriodicRenewal.next renewalAge) S.kept (s.log.map entryOf) (kept found))
    (hfound : Dated found now) (hleft : Dated (v.dirs S.tlsConfig.cacheDir) v.wall)
    (hbegun : S.origin + s.log.length * period ≤ now) (hpast : now ≤ v.wall)
    (hmade : outcome = .renewed → now ≤ recorded (v.dirs S.tlsConfig.cacheDir))
    (hnext : PeriodicRenewal.next renewalAge (kept found)
      (tickOf ⟨found, now, outcome, v.dirs S.tlsConfig.cacheDir⟩) =
        some (kept (v.dirs S.tlsConfig.cacheDir))) :
    Invariant S (s.finish v found now outcome S.tlsConfig.cacheDir) := by
  obtain ⟨hdead, _, hended⟩ := h.onTime.busy hb
  have hidle : (s.finish v found now outcome S.tlsConfig.cacheDir).busy = false := by
    simp only [State.busy, State.finish, hr]
  have hleft' := hleft.records ha.clock
  refine ⟨ha, ⟨?_, ?_⟩, ?_, ?_, ?_⟩
  · intro _
    simp only [State.finish, List.length_append, List.length_singleton]
    exact ⟨hdead, by omega⟩
  · intro hbusy
    rw [hidle] at hbusy
    cases hbusy
  · intro t ht
    rcases List.mem_append.mp ht with ht | ht
    · exact h.logged t ht
    · obtain rfl := List.mem_singleton.mp ht
      exact ⟨Nat.lt_of_le_of_lt hpast ha.clock, hfound, fun _ =>
        ⟨_, Nat.lt_of_le_of_lt hleft'.1 ha.clock, hleft'.2⟩⟩
  · simp only [State.finish, List.map_append, List.map_singleton]
    refine h.grid.snoc ⟨?_, ?_, ?_⟩
    · rw [List.length_map]
      exact hbegun
    · simp only [List.length_map]
      exact Nat.lt_of_le_of_lt hpast (by omega)
    · intro time hrenewed
      obtain ⟨hout, rfl⟩ := tickOf_renewed.mp hrenewed
      simp only [List.length_map]
      exact ⟨hmade hout, by omega⟩
  · simp only [State.finish, hr]
    refine ⟨?_, hleft⟩
    simp only [List.map_append, List.map_singleton]
    exact hrun.snoc hnext

theorem Invariant.fire (h : Invariant S s) (hr : s.server.renewal = some .tick)
    (hdue : s.deadline ≤ s.server.wall) :
    Invariant S (s.observe (s.server.renewalEffect (.goto .readConfig))) := by
  have hobserve : s.observe (s.server.renewalEffect (.goto .readConfig)) =
      { s with
        server := s.server.renewalEffect (.goto .readConfig)
        deadline := s.deadline + period } := by
    simp only [State.observe, hr, ProxyServer.State.renewalEffect]
  obtain ⟨hdead, hwall⟩ := h.onTime.idle (by simp only [State.busy, hr])
  rw [hobserve]
  refine ⟨h.around.renewalEffect (.goto .readConfig), ⟨?_, ?_⟩, h.logged, h.grid, ?_⟩
  · intro hidle
    cases hidle
  · intro _
    have hperiod : (s.log.length + 1) * period = s.log.length * period + period :=
      Nat.succ_mul ..
    have hpos : 0 < period := by decide
    simp only [ProxyServer.State.renewalEffect, hperiod]
    omega
  · have hs : Settled S s := h.placed hr
    exact ⟨hs.run, hs.dated⟩

theorem read_checks {tlsConfig : TlsConfig} {r : Reply} {eff : RenewalEffect H}
    (hr : s.server.renewal = some .readConfig)
    (hfixed : fixedConfig tlsConfig s (.renewal r) = true)
    (he : renewalStep s.server .readConfig r = some eff) :
    ∃ reading : RenewalReading H,
      eff = .goto (.checkCert reading) ∧ reading.tlsConfig = tlsConfig := by
  rcases r with _ | a | _ <;> try cases he
  cases a with
  | load f => cases he
  | fs reply =>
    obtain ⟨res, hres, rfl⟩ := Option.map_eq_some_iff.mp he
    simp only [fixedConfig, hr, hres] at hfixed
    cases res with
    | error e => cases hfixed
    | ok reading =>
      simp only [decide_eq_true_eq] at hfixed
      simp only [afterRenewalRead]
      split
      · rename_i hnone
        rw [hnone] at hfixed
        cases hfixed
      · rename_i tlsConfig' hsome
        exact ⟨⟨reading, tlsConfig', hsome⟩, rfl, Option.some.inj (hsome.symm.trans hfixed)⟩

theorem Invariant.attempt {r : RenewalReading H} (h : Invariant S s)
    (hr : s.server.renewal = some (.checkCert r) ∨ s.server.renewal = some (.checkIssuedAt r))
    (hs : Settled S s) (hcfg : r.tlsConfig = S.tlsConfig)
    (hdue : dirNeedsRenewal (s.server.dirs S.tlsConfig.cacheDir) s.server.wall = true) :
    Invariant S
      (s.observe (s.server.renewalEffect (.goto (startProvision s.server.challengeStore r)))) := by
  have hstart : startProvision s.server.challengeStore r =
      .provisioning r ⟨.provisionWithStore, r.tlsConfig⟩ .createDir := by
    rw [h.around.challengeStore]
    rfl
  have hobserve : ∀ pc : RenewalPc H, (∃ call q, pc = .provisioning r call q) →
      s.observe (s.server.renewalEffect (.goto pc)) =
        { s with
          server := s.server.renewalEffect (.goto pc)
          found := s.server.dirs r.tlsConfig.cacheDir
          now := s.server.wall } := by
    rintro pc ⟨call, q, rfl⟩
    rcases hr with hr | hr <;> simp only [State.observe, hr, ProxyServer.State.renewalEffect]
  have hb : s.busy = true := by
    rcases hr with hr | hr <;> simp only [State.busy, hr]
  rw [hstart, hobserve _ ⟨_, _, rfl⟩, hcfg]
  refine h.work hb rfl rfl rfl (h.around.renewalEffect (.goto _)) rfl ⟨hcfg, rfl, ?_, trivial⟩
  exact ⟨hs.run, hs.dated, hdue, (h.onTime.busy hb).2.1, Nat.le_refl _⟩

theorem invariant_checkCert {r : Reply} {reading : RenewalReading H} {eff : RenewalEffect H}
    (h : Invariant S s) (hr : s.server.renewal = some (.checkCert reading))
    (hanswered : answered s (.renewal r) = true)
    (he : renewalStep s.server (.checkCert reading) r = some eff) :
    Invariant S (s.observe (s.server.renewalEffect eff)) := by
  have hb : s.busy = true := by simp only [State.busy, hr]
  obtain ⟨hcfg, hs⟩ := h.placed hr
  have hok : ∀ reply, r = .call (.fs reply) → reply = .ok := by
    rintro reply rfl
    simpa only [answered, hr, decide_eq_true_eq] using hanswered
  cases renewalStep_cases he with
  | certMissing _ reply missing =>
    obtain rfl := hok reply rfl
    have hcert := Option.some.inj missing
    rw [hcfg] at hcert
    refine h.attempt (Or.inl hr) hs hcfg ?_
    rw [dirNeedsRenewal, hcert]
    rfl
  | certFound _ reply found =>
    obtain rfl := hok reply rfl
    have hcert := Option.some.inj found
    rw [hcfg] at hcert
    have hobserve : s.observe (s.server.renewalEffect (.goto (.checkIssuedAt reading))) =
        { s with server := s.server.renewalEffect (.goto (.checkIssuedAt reading)) } := by
      simp only [State.observe, hr, ProxyServer.State.renewalEffect]
    rw [hobserve]
    exact h.work hb rfl rfl rfl (h.around.renewalEffect (.goto _)) rfl
      ⟨hcfg, ⟨hs.run, hs.dated⟩, hcert⟩

theorem issuedAt_read {files : CacheDir} {reply : FsReply} {res : Except String String}
    (h : readFile files .issuedAt reply = some res)
    (hok : reply = .ok ∨ files .issuedAt = none) : res.toOption = files .issuedAt := by
  cases reply with
  | ok =>
    obtain ⟨content, hc, rfl⟩ := Option.map_eq_some_iff.mp h
    rw [hc]
    rfl
  | failed e =>
    obtain rfl := Option.some.inj h
    rw [hok.resolve_left (by simp)]
    rfl
  | torn n e => cases h

theorem invariant_checkIssuedAt {r : Reply} {reading : RenewalReading H} {eff : RenewalEffect H}
    (h : Invariant S s) (hr : s.server.renewal = some (.checkIssuedAt reading))
    (hanswered : answered s (.renewal r) = true)
    (he : renewalStep s.server (.checkIssuedAt reading) r = some eff) :
    Invariant S (s.observe (s.server.renewalEffect eff)) := by
  have hb : s.busy = true := by simp only [State.busy, hr]
  obtain ⟨hcfg, hs, hcert⟩ := h.placed hr
  have hread : ∀ reply res, r = .call (.fs reply) →
      readFile (s.server.dirs reading.tlsConfig.cacheDir) .issuedAt reply = some res →
      certNeedsRenewal true res.toOption s.server.wall =
        dirNeedsRenewal (s.server.dirs S.tlsConfig.cacheDir) s.server.wall := by
    rintro reply res rfl hres
    simp only [answered, hr, Bool.or_eq_true, decide_eq_true_eq, Option.isNone_iff_eq_none]
      at hanswered
    rw [issuedAt_read hres hanswered, hcfg, dirNeedsRenewal, hcert]
  cases renewalStep_cases he with
  | due _ reply res read due =>
    rw [hread reply res rfl read] at due
    exact h.attempt (Or.inr hr) hs hcfg due
  | notDue _ reply res read due =>
    rw [hread reply res rfl read, dirNeedsRenewal_eq_due hs.dated h.around.clock] at due
    have hobserve : s.observe (s.server.renewalEffect (.goto .tick)) =
        s.finish (s.server.renewalEffect (.goto .tick))
          (s.server.dirs S.tlsConfig.cacheDir) s.server.wall .skipped S.tlsConfig.cacheDir := by
      simp only [State.observe, hr, hcfg, ProxyServer.State.renewalEffect]
    rw [hobserve]
    refine h.finish hb rfl (h.around.renewalEffect (.goto .tick)) rfl hs.run hs.dated hs.dated
      (h.onTime.busy hb).2.1 (Nat.le_refl _) (fun hout => by cases hout) ?_
    exact PeriodicRenewal.next_of_due due.symm

theorem invariant_provisioning {r : Reply} {reading : RenewalReading H} {call : Call} {pc : Pc}
    {eff : RenewalEffect H} (h : Invariant S s)
    (hr : s.server.renewal = some (.provisioning reading call pc))
    (hclean : (s.server.renewalEffect eff).renewal = some .tick →
      SameRecord ((s.server.renewalEffect eff).dirs S.tlsConfig.cacheDir) s.found)
    (he : renewalStep s.server (.provisioning reading call pc) r = some eff) :
    Invariant S (s.observe (s.server.renewalEffect eff)) := by
  have hb : s.busy = true := by simp only [State.busy, hr]
  obtain ⟨hcfg, hcall, ha, hwritten⟩ := h.placed hr
  cases renewalStep_cases he with
  | provision _ _ _ pc' w reply step =>
    rw [hcfg] at step
    have hwritten' : Written s.now s.server.wall w.files pc'.phase :=
      written_step hcall ha.past hwritten step
    have hdirs : ∀ next,
        (s.server.renewalEffect (.provision reading.tlsConfig.cacheDir w next)).dirs
          S.tlsConfig.cacheDir = w.files := by
      intro next
      rw [← hcfg]
      exact Function.update_self ..
    have hmoved : ∀ next, Attempting S { s with
        server := s.server.renewalEffect (.provision reading.tlsConfig.cacheDir w next) } :=
      fun next => ha.frame (Nat.le_refl _)
    rcases afterRenewalProvision_cases reading call pc' with
      hgo | ⟨issued, rfl, hgo⟩ | ⟨e, rfl, hgo⟩
    · rw [hgo, observe_goes hr rfl (Or.inl ⟨_, _, _, rfl⟩) (fun hno => by cases hno)]
      refine h.work hb rfl rfl rfl (h.around.renewalEffect (.provision _ _ _)) rfl
        ⟨hcfg, hcall, hmoved _, ?_⟩
      rw [hdirs]
      exact hwritten'
    · rw [hgo, observe_goes hr rfl (Or.inl ⟨_, _, _, rfl⟩) (fun hno => by cases hno)]
      refine h.work hb rfl rfl rfl (h.around.renewalEffect (.provision _ _ _)) rfl
        ⟨hcfg, hmoved _, ?_⟩
      rw [hdirs]
      exact hwritten'
    · rw [hgo] at hclean ⊢
      have hleft := hclean rfl
      have hobserve : s.observe (s.server.renewalEffect
          (.provision reading.tlsConfig.cacheDir w .tick)) =
          s.finish (s.server.renewalEffect (.provision reading.tlsConfig.cacheDir w .tick))
            s.found s.now .failed S.tlsConfig.cacheDir := by
        simp only [State.observe, hr, hcfg, ProxyServer.State.renewalEffect]
      rw [hobserve]
      refine h.finish hb rfl (h.around.renewalEffect (.provision _ _ _)) rfl ha.run ha.dated
        ((dated_congr hleft ha.dated).mono ha.past) ha.begun ha.past (fun hout => by cases hout) ?_
      rw [kept_congr hleft]
      exact PeriodicRenewal.next_of_due (ha.due_kept h.around.clock).symm

theorem invariant_building {r : Reply} {reading : RenewalReading H} {b : Build}
    {eff : RenewalEffect H} (h : Invariant S s)
    (hr : s.server.renewal = some (.building reading b))
    (he : renewalStep s.server (.building reading b) r = some eff) :
    Invariant S (s.observe (s.server.renewalEffect eff)) := by
  have hb : s.busy = true := by simp only [State.busy, hr]
  obtain ⟨hcfg, ha, hrenewed⟩ := h.placed hr
  obtain ⟨n, hbegun, hpast, hissued⟩ := hrenewed.issuedAt
  have hclock := h.around.clock
  have hdated : Dated (s.server.dirs S.tlsConfig.cacheDir) s.server.wall :=
    ⟨n, hpast, Or.inl hissued⟩
  have hrecorded : recorded (s.server.dirs S.tlsConfig.cacheDir) = n :=
    recorded_eq (Or.inl hissued) (by omega)
  have hkept : kept (s.server.dirs S.tlsConfig.cacheDir) =
      some (recorded (s.server.dirs S.tlsConfig.cacheDir)) := if_pos hrenewed.cert
  -- published or not, the certificate is there
  have hend : ∀ v : ProxyServer.State H, v.renewal = some .tick → Around v →
      v.wall = s.server.wall → v.dirs = s.server.dirs → Invariant S (s.observe v) := by
    intro v hv hav hw hd
    have hobserve : s.observe v = s.finish v s.found s.now .renewed S.tlsConfig.cacheDir := by
      simp only [State.observe, hr, hv, hcfg]
    rw [hobserve]
    refine h.finish hb hv hav hw ha.run ha.dated ?_ ha.begun ?_ ?_ ?_
    · rw [hd, hw]
      exact hdated
    · rw [hw]
      exact ha.past
    · intro _
      rw [hd, hrecorded]
      exact hbegun
    · rw [hd, hkept]
      exact PeriodicRenewal.next_of_due (ha.due_kept hclock).symm
  cases renewalStep_cases he with
  | build _ _ b' a step =>
    rw [observe_goes hr rfl (Or.inr ⟨_, _, rfl⟩) (fun hno => by cases hno)]
    exact h.work hb rfl rfl rfl (h.around.renewalEffect (.goto _)) rfl
      ⟨hcfg, ha.frame (Nat.le_refl _), hrenewed⟩
  | buildFailed _ view => exact hend _ rfl (h.around.renewalEffect (.goto .tick)) rfl rfl
  | store _ view p _ _ _ => exact hend _ rfl (h.around.renewalEffect (.store p)) rfl rfl

theorem invariant_step {t : State H} {e : Event} (h : Invariant S s)
    (hreg : Regular S.tlsConfig s e) (hn : RenewalTicks.next s e = some t) : Invariant S t := by
  simp only [Regular, Bool.and_eq_true] at hreg
  obtain ⟨⟨⟨⟨htime, hfixed⟩, hanswered⟩, hkeeps⟩, hclean⟩ := hreg
  have hfires : ¬ (fires s.server e = true ∧ s.server.wall < s.deadline) := by
    intro hwait
    rw [RenewalTicks.next, if_pos hwait] at hn
    cases hn
  have hn' := hn
  rw [RenewalTicks.next, if_neg hfires] at hn'
  obtain ⟨v, hv, rfl⟩ := Option.map_eq_some_iff.mp hn'
  have same : ∀ files : CacheDir, SameRecord files files := fun _ => ⟨rfl, rfl⟩
  cases step_of_next hv with
  | main r eff he =>
    rw [h.around.no_main] at he
    cases he
  | renewal r pc eff hpc he =>
    cases pc with
    | tick =>
      cases renewalStep_cases he with
      | fire =>
        refine h.fire hpc (Nat.le_of_not_lt fun hlt => hfires ⟨?_, hlt⟩)
        simp only [fires, hpc]
    | readConfig =>
      obtain ⟨reading, rfl, hcfg⟩ := read_checks hpc hfixed he
      have hb : s.busy = true := by simp only [State.busy, hpc]
      have hs : Settled S s := h.placed hpc
      have hobserve : s.observe (s.server.renewalEffect (.goto (.checkCert reading))) =
          { s with server := s.server.renewalEffect (.goto (.checkCert reading)) } := by
        simp only [State.observe, hpc, ProxyServer.State.renewalEffect]
      rw [hobserve]
      exact h.work hb rfl rfl rfl (h.around.renewalEffect (.goto _)) rfl
        ⟨hcfg, ⟨hs.run, hs.dated⟩⟩
    | checkCert reading => exact invariant_checkCert h hpc hanswered he
    | checkIssuedAt reading => exact invariant_checkIssuedAt h hpc hanswered he
    | provisioning reading call pc =>
      refine invariant_provisioning h hpc (fun htick => ?_) he
      simpa only [failsClean, hpc, hn, observe_server, htick, decide_eq_true_eq] using hclean
    | building reading b => exact invariant_building h hpc he
  | editCache dir files =>
    refine h.beside rfl ⟨h.around.challengeStore, h.around.main, h.around.clock⟩ ?_ rfl
    by_cases hdir : S.tlsConfig.cacheDir = dir
    · subst hdir
      simp only [Function.update_self]
      simpa [keepsRecord] using hkeeps
    · simp only [Function.update_of_ne hdir]
      exact same _
  | clock instant wall forward =>
    simp only [onTime, Bool.and_eq_true, Bool.or_eq_true, decide_eq_true_eq] at htime
    obtain ⟨⟨⟨hforward, hlimit⟩, hdead⟩, hbusy⟩ := htime
    refine h.frame rfl ⟨h.around.challengeStore, h.around.main, hlimit⟩ (same _) hforward
      (fun _ => hdead) fun hb => ?_
    simpa [hb] using hbusy
  | reload r pc eff hpc he =>
    cases eff <;> exact h.beside rfl
      ⟨h.around.challengeStore, h.around.main, h.around.clock⟩ (same _) rfl
  | acceptError m ha =>
    exact h.beside rfl ⟨h.around.challengeStore, Or.inr ⟨_, rfl⟩, h.around.clock⟩ (same _) rfl
  | shutdown ha =>
    exact h.beside rfl ⟨h.around.challengeStore, Or.inr ⟨_, rfl⟩, h.around.clock⟩ (same _) rfl
  | _ =>
    exact h.beside rfl ⟨h.around.challengeStore, h.around.main, h.around.clock⟩ (same _) rfl

theorem start_invariant {tlsConfig : TlsConfig} {server : ProxyServer.State H}
    (h : StartsLoop tlsConfig server) :
    Invariant ⟨tlsConfig, server.wall, kept (server.dirs tlsConfig.cacheDir)⟩ (start server) := by
  refine ⟨⟨h.challengeStore, Or.inl h.main, h.clock⟩, ⟨?_, ?_⟩, ?_, PeriodicRenewal.onGrid_nil, ?_⟩
  · intro _
    simp [start]
  · intro hb
    simp only [start, State.busy, h.renewal] at hb
    cases hb
  · intro t ht
    cases ht
  · simp only [start, h.renewal]
    exact ⟨.nil, h.record⟩

theorem Invariant.run (h : Invariant S s) :
    ∃ k, Run (PeriodicRenewal.next renewalAge) S.kept (s.log.map entryOf) k := by
  have hplace := h.place
  generalize s.server.renewal = pc at hplace
  rcases pc with _ | pc
  · cases hplace
  cases pc with
  | tick => exact ⟨_, hplace.run⟩
  | readConfig => exact ⟨_, hplace.run⟩
  | checkCert r => exact ⟨_, hplace.2.run⟩
  | checkIssuedAt r => exact ⟨_, hplace.2.1.run⟩
  | provisioning r call pc => exact ⟨_, hplace.2.2.1.run⟩
  | building r b => exact ⟨_, hplace.2.1.run⟩

theorem OnTime.wall_lt {origin : ℕ} (h : OnTime origin s) :
    s.server.wall < origin + (s.log.length + 1) * period := by
  by_cases hb : s.busy = true
  · obtain ⟨hdead, _, hlt⟩ := h.busy hb
    omega
  · obtain ⟨hdead, hle⟩ := h.idle (Bool.eq_false_iff.mpr hb)
    have hpos : 0 < period := by decide
    rw [Nat.succ_mul]
    omega

/-- No more than `f` attempts in a row fail. -/
def AtMostFailures (f : ℕ) (log : List Tick) : Prop :=
  ∀ row, row <:+: log.filter Tick.attempted → (∀ t ∈ row, t.outcome = .failed) → row.length ≤ f

/-- The ticks of a loop that started at `origin`, with one in every day. A renewal is attempted
exactly when one is due, again after each failure until one succeeds, and not within 60 days of a
success. With at most `f` failures in a row, no certificate reaches an age of `62 + f` days
before the next one is issued. -/
structure Schedule (origin : ℕ) (u : State H) : Prop where
  daily : ∀ (i : ℕ) (t : Tick), u.log[i]? = some t →
    origin + i * period ≤ t.now ∧ t.now < origin + (i + 1) * period
  decided : ∀ t ∈ u.log, ∃ issued, Records t.found issued ∧
    (t.attempted = true ↔ t.found .cert = none ∨ issued + renewalAge < t.now)
  underWay : ∀ r call pc, u.server.renewal = some (.provisioning r call pc) →
    ∃ issued, Records u.found issued ∧ (u.found .cert = none ∨ issued + renewalAge < u.now)
  retried : ∀ (i j : ℕ) (t t' : Tick), i < j → u.log[i]? = some t → u.log[j]? = some t' →
    t.outcome = .failed →
    (∀ (k : ℕ) (r : Tick), i < k → k < j → u.log[k]? = some r → r.outcome ≠ .renewed) →
    t'.attempted = true
  renewed : ∀ (i : ℕ) (t : Tick), u.log[i]? = some t → t.outcome = .renewed →
    ∃ issued, Records t.left issued ∧ t.now ≤ issued ∧ issued < origin + (i + 1) * period
  quiet : ∀ (i j : ℕ) (t t' : Tick) (issued : ℕ), i < j → u.log[i]? = some t → u.log[j]? = some t' →
    t.outcome = .renewed → Records t.left issued → t'.now ≤ issued + renewalAge →
    t'.attempted = false
  replaced : ∀ (f i : ℕ) (t : Tick) (issued : ℕ), AtMostFailures f u.log → u.log[i]? = some t →
    t.outcome = .renewed → Records t.left issued →
    issued + (62 + f) * period ≤ u.server.wall →
    ∃ (j : ℕ) (t' : Tick) (issued' : ℕ), i < j ∧ u.log[j]? = some t' ∧ t'.outcome = .renewed ∧
      Records t'.left issued' ∧ issued' < issued + (62 + f) * period ∧
      (f ≤ 27 → issued' < issued + 90 * period)

theorem toString_injective {m n : ℕ} (h : toString m = toString n) : m = n := by
  have hdigits : Nat.toDigits 10 m = Nat.toDigits 10 n := by
    rw [← Nat.toList_repr, ← Nat.toList_repr]
    exact congrArg String.toList h
  calc m = Nat.ofDigitChars 10 (Nat.toDigits 10 m) 0 := Nat.ofDigitChars_ten_toDigits.symm
    _ = Nat.ofDigitChars 10 (Nat.toDigits 10 n) 0 := by rw [hdigits]
    _ = n := Nat.ofDigitChars_ten_toDigits

theorem records_unique {files : CacheDir} {m n : ℕ} (hm : Records files m)
    (hn : Records files n) : m = n := by
  rcases hm with hm | ⟨hm, rfl⟩ <;> rcases hn with hn | ⟨hn, rfl⟩
  · exact toString_injective (Option.some.inj (hm.symm.trans hn))
  · rw [hm] at hn
    cases hn
  · rw [hm] at hn
    cases hn
  · rfl

theorem due_iff {files : CacheDir} {now : ℕ} :
    PeriodicRenewal.due renewalAge (kept files) now = true ↔
      files .cert = none ∨ recorded files + renewalAge < now := by
  unfold kept PeriodicRenewal.due
  cases files .cert <;> simp

theorem atMostFailures_entries {f : ℕ} {log : List Tick} (h : AtMostFailures f log) :
    PeriodicRenewal.AtMostFailures f (log.map entryOf) := by
  intro row hrow hfail
  have hattempted : (fun p : Option ℕ × PeriodicRenewal.Tick => p.2.attempted) ∘ entryOf =
      Tick.attempted := funext tickOf_attempted
  rw [List.filter_map, hattempted] at hrow
  obtain ⟨before, later, hsplit⟩ := hrow
  obtain ⟨front, back, hlog, hfront, -⟩ := List.map_eq_append_iff.mp hsplit.symm
  obtain ⟨left, mid, rfl, -, rfl⟩ := List.map_eq_append_iff.mp hfront
  rw [List.length_map]
  refine h mid ⟨left, back, hlog.symm⟩ fun t ht => ?_
  exact tickOf_failed.mp (hfail _ (List.mem_map_of_mem ht))

theorem getElem?_entries {log : List Tick} {i : ℕ} {t : Tick} (h : log[i]? = some t) :
    (log.map entryOf)[i]? = some (entryOf t) := by
  rw [List.getElem?_map, h]
  rfl

theorem Logged.left_records {t : Tick} (h : Logged t) (hr : t.outcome = .renewed) :
    Records t.left (recorded t.left) := by
  obtain ⟨n, hn, hrec⟩ := h.left hr
  rwa [recorded_eq hrec (by omega)]

theorem Invariant.schedule (h : Invariant S s) : Schedule S.origin s := by
  obtain ⟨k, hrun⟩ := h.run
  have hlogged : ∀ i t, s.log[i]? = some t → Logged t := fun i t ht =>
    h.logged t (List.mem_of_getElem? ht)
  refine ⟨?_, ?_, ?_, ?_, ?_, ?_, ?_⟩
  · intro i t ht
    have hin := h.grid i _ (getElem?_entries ht)
    exact ⟨hin.begun, hin.ended⟩
  · intro t ht
    obtain ⟨i, hi⟩ := List.mem_iff_getElem?.mp ht
    have hrecords := (h.logged t ht).found.records (h.logged t ht).now
    refine ⟨_, hrecords.2, ?_⟩
    rw [← due_iff, ← tickOf_attempted]
    exact Bool.eq_iff_iff.mp (PeriodicRenewal.decided hrun (getElem?_entries hi))
  · intro r call pc hr
    obtain ⟨-, -, ha, -⟩ := h.placed hr
    have hnow : s.now < 2 ^ 63 := Nat.lt_of_le_of_lt ha.past h.around.clock
    exact ⟨_, (ha.dated.records hnow).2, due_iff.mp (ha.due_kept h.around.clock)⟩
  · intro i j t t' hij hi hj hfail hno
    rw [← tickOf_attempted]
    refine PeriodicRenewal.retried hrun h.grid hij (getElem?_entries hi) (getElem?_entries hj)
      (tickOf_failed.mpr hfail) ?_
    intro k p made hik hkj hp hmade
    rw [List.getElem?_map] at hp
    obtain ⟨r, hr, rfl⟩ := Option.map_eq_some_iff.mp hp
    exact hno k r hik hkj hr (tickOf_renewed.mp hmade).1
  · intro i t ht hrenewed
    have hmade := (h.grid i _ (getElem?_entries ht)).made _ (tickOf_renewed.mpr ⟨hrenewed, rfl⟩)
    exact ⟨_, (hlogged i t ht).left_records hrenewed, hmade⟩
  · intro i j t t' issued hij hi hj hrenewed hissued hnow
    obtain rfl := records_unique hissued ((hlogged i t hi).left_records hrenewed)
    rw [← tickOf_attempted]
    exact PeriodicRenewal.quiet hrun h.grid hij (getElem?_entries hi) (getElem?_entries hj)
      (tickOf_renewed.mpr ⟨hrenewed, rfl⟩) hnow
  · intro f i t issued hf hi hrenewed hissued hold
    obtain rfl := records_unique hissued ((hlogged i t hi).left_records hrenewed)
    have hentry := getElem?_entries hi
    have hin := h.grid i _ hentry
    have hmade := hin.made _ (tickOf_renewed.mpr ⟨hrenewed, rfl⟩)
    -- the clock has gone on for so long that there has been a tick in each of these days
    have hlength : i + (60 + 1 + f) < (s.log.map entryOf).length := by
      have hwall := h.onTime.wall_lt
      have hbegun := hin.begun
      have hdays : (i + (62 + f)) * period < (s.log.length + 1) * period := by
        rw [Nat.add_mul]
        omega
      have hlt := Nat.lt_of_mul_lt_mul_right hdays
      rw [List.length_map]
      omega
    rw [show renewalAge = 60 * period from rfl] at hrun
    obtain ⟨j, q, made, hij, hj, hq, hlt⟩ := PeriodicRenewal.replaced_within hrun h.grid
      (atMostFailures_entries hf) hentry (tickOf_renewed.mpr ⟨hrenewed, rfl⟩) hlength
    rw [show 60 + 2 + f = 62 + f by omega] at hlt
    rw [List.getElem?_map] at hj
    obtain ⟨t', ht', rfl⟩ := Option.map_eq_some_iff.mp hj
    obtain ⟨hrenewed', rfl⟩ := tickOf_renewed.mp hq
    refine ⟨j, t', _, hij, ht', hrenewed', (hlogged j t' ht').left_records hrenewed', hlt, ?_⟩
    intro hfew
    have hmul : (62 + f) * period ≤ 90 * period := Nat.mul_le_mul_right period (by omega)
    omega

/-- The renewal loop with a challenge store, over every run. -/
theorem renewal_schedule {tlsConfig : TlsConfig} {server : ProxyServer.State H}
    (hs : StartsLoop tlsConfig server) {tr : List (State H × Event)} {u : State H}
    (h : Run RenewalTicks.next (start server) tr u) (hr : Obeys (Regular tlsConfig) tr) :
    Schedule server.wall u := by
  have hinv := h.invariant_of
    (I := Invariant ⟨tlsConfig, server.wall, kept (server.dirs tlsConfig.cacheDir)⟩)
    (fun t e v ht hreg hn => invariant_step ht hreg hn) (start_invariant hs) hr
  exact hinv.schedule

def sampleTls : TlsConfig :=
  ⟨"ops@example.com", defaultAcmeDirectory, "/cache", ["example.com"]⟩

/-- The first tick finds a certificate without a record of its age and renews, the second one
finds the record. -/
theorem renewal_schedule_twice : ∃ tr u, Run RenewalTicks.next (start sampleServing) tr u ∧
    u.log.map (fun t => (t.now, t.outcome)) = [(1700000000, .renewed), (1700086400, .skipped)] ∧
    Schedule sampleServing.wall u := by
  let es := sampleRenewal ++ sampleBuild.map .renewal ++
    [.clock (AcmeProvision.secs 86400) 1700086400] ++
    [Reply.proceed, .ok, .ok, .ok].map .renewal
  obtain ⟨u, hr, hlog⟩ := run_of_view RenewalTicks.next (start sampleServing) es
    (fun s => s.log.map fun t => (t.now, t.outcome))
    [(1700000000, .renewed), (1700086400, .skipped)] rfl
  have hs : StartsLoop sampleTls sampleServing :=
    ⟨rfl, rfl, rfl, by decide, 0, Nat.zero_le _, Or.inr ⟨rfl, rfl⟩⟩
  have hregular : Obeys (Regular sampleTls) (traceOf RenewalTicks.next (start sampleServing) es) :=
    obeys_of_all rfl
  exact ⟨_, u, hr, hlog, renewal_schedule hs hr hregular⟩

end RenewalSchedule
