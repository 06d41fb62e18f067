import PrismProxy.ProxyServerSteps

/-! # The certificate that is served and the one in the cache

A renewal writes `cert.pem`, `key.pem` and `issued_at`, builds a state and stores it. Once
`issued_at` is fresh the loop takes the directory for renewed, whatever became of the build. -/
namespace CertificateFreshness

open TransitionRuns ProxyConfig ProxyState CertificateCache StatePublication ProxyServer

variable {H : Host}

/-- The config a tick works on, from the first look at the cache on. -/
def reading : RenewalPc H → Option (RenewalReading H)
  | .checkCert r | .checkIssuedAt r | .provisioning r _ _ | .building r _ => some r
  | _ => none

def working : RenewalPc H → Option (RenewalReading H)
  | .provisioning r _ _ | .building r _ => some r
  | _ => none

def workDir (s : State H) : Option String :=
  (s.renewal.bind working).map fun r => r.tlsConfig.cacheDir

inductive TickEnd where
  | looked
  | gaveUp
  | stored
  deriving DecidableEq, Repr

/-- How a step ends a renewal tick that has a `[tls]` config: after a look at the cache, with a
failed renewal, or with a state stored. -/
def tickEnd (s : State H) : Event → Option (TickEnd × RenewalReading H)
  | .renewal reply =>
    match s.renewal with
    | none => none
    | some pc =>
      match reading pc, renewalStep s pc reply with
      | some r, some (.store _) => some (.stored, r)
      | some r, some (.goto .tick) | some r, some (.provision _ _ .tick) =>
        some (if (working pc).isSome then .gaveUp else .looked, r)
      | _, _ => none
  | _ => none

def reloadIdle (s : State H) : Bool :=
  match s.reload with
  | none | some .tick => true
  | _ => false

def due (s : State H) (dir : String) : Bool := dirNeedsRenewal (s.dirs dir) s.wall

/-- The TLS state of `p` is what the two files make. -/
def ServesPair (p : Publication H) (files : CacheDir) : Prop :=
  ∃ tlsConfig tls cert key, p.config.tls = some tlsConfig ∧ p.state.tls = some tls ∧
    files .cert = some cert ∧ files .key = some key ∧
    buildTlsState H.rustls tlsConfig cert key = .ok tls

/-- If the step ends a renewal tick after which nothing is due and no reload is under way, the
published state serves the pair that is now in the cache directory of the tick. -/
def ServedAtTickEnd (s : State H) (e : Event) : Prop :=
  ∀ t x, next s e = some t → tickEnd s e = some x → due t x.2.tlsConfig.cacheDir = false →
    reloadIdle t = true → ∃ p, t.published = some p ∧ ServesPair p (t.dirs x.2.tlsConfig.cacheDir)

/-- `cert.pem` and `key.pem` are written only by provisioning. -/
def KeepsPair (s : State H) : Event → Prop
  | .editCache dir files => pairOf files = pairOf (s.dirs dir)
  | _ => True

/-- Nothing but a renewal makes a due renewal not due. -/
def StaysDue (s : State H) : Event → Prop
  | .clock _ wall => s.wall ≤ wall
  | .editCache dir files => due s dir = true → dirNeedsRenewal files s.wall = true
  | _ => True

/-- A renewal that fails is still due. -/
def FailsWhileDue (s : State H) (e : Event) : Prop :=
  ∀ x ∈ tickEnd s e, x.1 = .gaveUp → due s x.2.tlsConfig.cacheDir = true

/-- A tick that leaves the cache as it is looks at the directory the published state is from. -/
def LooksAtPublished (s : State H) (e : Event) : Prop :=
  ∀ x ∈ tickEnd s e, x.1 = .looked → due s x.2.tlsConfig.cacheDir = false → reloadIdle s = true →
    (s.published.bind fun p => p.config.tls).map TlsConfig.cacheDir = some x.2.tlsConfig.cacheDir

/-- What a build saw is the pair in the directory. -/
def SawPair (view : BuildView) (files : CacheDir) : Prop :=
  view.certExists = true ∧ view.keyExists = true ∧
    (view.readCert.toOption, view.readKey.toOption) = pairOf files

instance (view : BuildView) (files : CacheDir) : Decidable (SawPair view files) :=
  inferInstanceAs (Decidable (_ ∧ _ ∧ _))

/-- Start-up and a renewal store what they built with both files there. A reload stores a build
of the pair now on disk, or one that a renewal will replace. -/
def StoresPair (s : State H) (e : Event) : Prop :=
  ∀ x ∈ storing s e, ∀ tlsConfig ∈ x.2.config.tls, due s tlsConfig.cacheDir = false →
    (x.1 ≠ .reload → x.2.view.certExists = true ∧ x.2.view.keyExists = true) ∧
    (x.1 = .reload → workDir s ≠ some tlsConfig.cacheDir →
      SawPair x.2.view (s.dirs tlsConfig.cacheDir))

/-- The condition on the steps of a run. -/
def Renewing (s : State H) (e : Event) : Prop :=
  StaysDue s e ∧ FailsWhileDue s e ∧ LooksAtPublished s e ∧ StoresPair s e

def MainBuilds (s : State H) (r : ValidReading H) (b : Build) : Prop :=
  s.main = .building r b ∨ ∃ boot, s.main = .rebuilding boot r b

def Served (s : State H) : Prop :=
  ∀ p tlsConfig, s.published = some p → p.config.tls = some tlsConfig →
    ServesPair p (s.dirs tlsConfig.cacheDir) ∨ due s tlsConfig.cacheDir = true ∨
      workDir s = some tlsConfig.cacheDir

structure Invariant (s : State H) : Prop where
  opening : Opening s
  spawning : ∀ boot, s.main = .stat boot ∨ s.main = .readPort boot → s.renewal = none
  startup : ∀ r b, MainBuilds s r b → ∀ tlsConfig, r.config.tls = some tlsConfig →
    b.Reads (s.dirs tlsConfig.cacheDir)
  building : ∀ r b, s.renewal = some (.building r b) → b.Reads (s.dirs r.tlsConfig.cacheDir)
  served : Served s

/-- Both loops are yet to start a tick, and the published state, if there is one, serves the
pair in the cache or a renewal is due. -/
structure Started (s : State H) : Prop where
  opening : Opening s
  main : s.main = .readConfig ∨ s.main = .serving
  renewal : s.renewal = none ∨ s.renewal = some .tick
  served : ∀ p tlsConfig, s.published = some p → p.config.tls = some tlsConfig →
    ServesPair p (s.dirs tlsConfig.cacheDir) ∨ due s tlsConfig.cacheDir = true

theorem boot_started (H : Host) (file : FileVersion) (dirs : String → CacheDir)
    (instant wall : ℕ) : Started (boot H file dirs instant wall) where
  opening := boot_opening H file dirs instant wall
  main := Or.inl rfl
  renewal := Or.inl rfl
  served := by intro p tlsConfig hp; cases hp

theorem Started.invariant {s : State H} (h : Started s) : Invariant s := by
  refine ⟨h.opening, ?_, ?_, ?_, ?_⟩
  · intro boot hm
    rcases h.main with hr | hr <;> simp [hr] at hm
  · intro r b hm
    rcases h.main with hr | hr <;> simp [MainBuilds, hr] at hm
  · intro r b hb
    rcases h.renewal with hr | hr <;> simp [hr] at hb
  · intro p tlsConfig hp ht
    rcases h.served p tlsConfig hp ht with hs | hs
    · exact Or.inl hs
    · exact Or.inr (Or.inl hs)

theorem ServesPair.congr {p : Publication H} {files files' : CacheDir} (h : ServesPair p files)
    (hp : pairOf files' = pairOf files) : ServesPair p files' := by
  obtain ⟨tlsConfig, tls, cert, key, ht, hs, hc, hk, hb⟩ := h
  obtain ⟨hc', hk'⟩ := Prod.mk.inj hp
  exact ⟨tlsConfig, tls, cert, key, ht, hs, hc'.trans hc, hk'.trans hk, hb⟩

theorem servesPair_of_reads {p : Publication H} {tlsConfig : TlsConfig} {files : CacheDir}
    {b : Build} (ht : p.config.tls = some tlsConfig) (hv : p.view = b.view) (hr : b.Reads files)
    (hc : p.view.certExists = true) (hk : p.view.keyExists = true) : ServesPair p files := by
  rcases buildTls_ok (buildState_ok p.built).2.2 with ⟨_, hmiss⟩ | hok
  · rcases hmiss with hmiss | hmiss
    · rw [ht] at hmiss
      cases hmiss
    · simp [hc, hk] at hmiss
  · obtain ⟨tc, tls, cert, key, htc, hs, _, hcert, hkey, hb⟩ := hok
    rw [hv] at hcert hkey
    exact ⟨tc, tls, cert, key, htc, hs, hr.cert cert hcert, hr.key key hkey, hb⟩

theorem servesPair_of_saw {p : Publication H} {tlsConfig : TlsConfig} {files : CacheDir}
    (ht : p.config.tls = some tlsConfig) (h : SawPair p.view files) : ServesPair p files := by
  obtain ⟨hc, hk, hpair⟩ := h
  obtain ⟨hcert, hkey⟩ := Prod.mk.inj hpair
  refine servesPair_of_reads (b := ⟨.ready, p.view⟩) ht rfl ⟨?_, ?_⟩ hc hk
  · intro cert hr
    rw [← hcert, hr]
    rfl
  · intro key hr
    rw [← hkey, hr]
    rfl

theorem Invariant.spawned {s : State H} {pc : RenewalPc H} (h : Invariant s)
    (hpc : s.renewal = some pc) (boot : Boot) :
    ¬ (s.main = .stat boot ∨ s.main = .readPort boot) := by
  intro hm
  rw [h.spawning boot hm] at hpc
  cases hpc

/-- Steps that publish nothing, leave the pairs in the cache alone, make nothing due undone and
take no work from the renewal. -/
theorem Served.frame {s t : State H} (h : Served s) (hl : t.log = s.log)
    (hp : ∀ dir, pairOf (t.dirs dir) = pairOf (s.dirs dir))
    (hd : ∀ dir, due s dir = true → due t dir = true)
    (hw : ∀ dir, workDir s = some dir → due t dir = true ∨ workDir t = some dir) : Served t := by
  intro p tlsConfig hpub ht
  have hpub : s.published = some p := by simpa [State.published, hl] using hpub
  rcases h p tlsConfig hpub ht with hs | hdue | hwork
  · exact Or.inl (hs.congr (hp _))
  · exact Or.inr (Or.inl (hd _ hdue))
  · exact Or.inr (hw _ hwork)

theorem Invariant.frame {s t : State H} (h : Invariant s) (ho : Opening t) (hm : t.main = s.main)
    (hr : t.renewal = s.renewal) (hl : t.log = s.log)
    (hp : ∀ dir, pairOf (t.dirs dir) = pairOf (s.dirs dir))
    (hd : ∀ dir, due s dir = true → due t dir = true) : Invariant t where
  opening := ho
  spawning := by simpa only [hm, hr] using h.spawning
  startup := by
    intro r b hb tlsConfig ht
    simp only [MainBuilds, hm] at hb
    exact (h.startup r b hb tlsConfig ht).congr (hp _)
  building := by
    intro r b hb
    rw [hr] at hb
    exact (h.building r b hb).congr (hp _)
  served := by
    refine h.served.frame hl hp hd ?_
    intro dir hw
    exact Or.inr (by simpa only [workDir, hr] using hw)

theorem Invariant.mainGoto {s : State H} {pc : MainPc H} (h : Invariant s)
    (ho : Opening { s with main := pc })
    (hs : ∀ boot, pc ≠ .stat boot ∧ pc ≠ .readPort boot)
    (hb : ∀ r b, (pc = .building r b ∨ ∃ boot, pc = .rebuilding boot r b) →
      ∀ tlsConfig, r.config.tls = some tlsConfig → b.Reads (s.dirs tlsConfig.cacheDir)) :
    Invariant { s with main := pc } where
  opening := ho
  spawning := by
    intro boot hm
    rcases hm with hm | hm
    · exact absurd hm (hs boot).1
    · exact absurd hm (hs boot).2
  startup := hb
  building := h.building
  served := h.served

theorem Invariant.publish {s : State H} {r : ValidReading H} {view : BuildView}
    {p : Publication H} {boot : Boot} (h : Invariant s)
    (ho : Opening (s.mainEffect (.publish p boot))) (hnil : s.log = [])
    (hb : MainBuilds s r ⟨.ready, view⟩) (hr : p.toReading = r.toReading) (hv : p.view = view)
    (hc : ∀ tlsConfig, p.config.tls = some tlsConfig → due s tlsConfig.cacheDir = false →
      p.view.certExists = true ∧ p.view.keyExists = true) :
    Invariant (s.mainEffect (.publish p boot)) := by
  have hidle : s.renewal = none := (h.opening.tasks hnil).2.1
  refine ⟨ho, fun _ _ => hidle, ?_, ?_, ?_⟩
  · intro r' b hm
    rcases hm with hm | ⟨_, hm⟩ <;> cases hm
  · intro r' b hm
    exact h.building r' b hm
  · intro q tlsConfig hq ht
    obtain rfl : p = q := Option.some.inj hq
    by_cases hd : due s tlsConfig.cacheDir = true
    · exact Or.inr (Or.inl hd)
    · obtain ⟨hcert, hkey⟩ := hc tlsConfig ht (by simpa using hd)
      have ht' : r.config.tls = some tlsConfig := by rw [← ht, hr]
      exact Or.inl (servesPair_of_reads ht hv (h.startup r _ hb tlsConfig ht') hcert hkey)

theorem afterMainProvision_ne (boot : Boot) (call : AcmeProvision.Call) (pc : AcmeProvision.Pc)
    (r : ValidReading H) (b : Build) :
    afterMainProvision boot call pc ≠ .building r b ∧
      ∀ boot', afterMainProvision boot call pc ≠ .rebuilding boot' r b := by
  cases pc with
  | done result => cases result <;> simp [afterMainProvision]
  | _ => simp [afterMainProvision]

theorem invariant_main {s : State H} {r : Reply} {eff : MainEffect H} (h : Invariant s)
    (hc : StoresPair s (.main r)) (he : mainStep s s.main r = some eff)
    (ho : Opening (s.mainEffect eff)) : Invariant (s.mainEffect eff) := by
  have hstore : ∀ p boot, eff = .publish p boot → ∀ tlsConfig, p.config.tls = some tlsConfig →
      due s tlsConfig.cacheDir = false → p.view.certExists = true ∧ p.view.keyExists = true := by
    rintro p boot rfl tlsConfig ht hd
    exact (hc (.main, p) (by simp [storing, he]) tlsConfig ht hd).1 (by simp)
  generalize hpc : s.main = pc at he
  have hnil : pc.starting = true → s.log = [] := by
    intro hst
    exact h.opening.starting (by rw [hpc]; exact hst)
  cases mainStep_cases he with
  | leave _ _ m => exact h.mainGoto ho (by simp) (by simp)
  | readOk _ vr _ _ =>
    refine h.mainGoto ho (by simp) ?_
    rintro r b (hm | ⟨_, hm⟩) <;> cases hm
    exact fun _ _ => Build.start_reads _
  | build vr b b' a hstep =>
    refine h.mainGoto ho (by simp) ?_
    rintro r b (hm | ⟨_, hm⟩) <;> cases hm
    intro tlsConfig ht
    exact Build.step_reads ht (h.startup vr _ (Or.inl hpc) tlsConfig ht) hstep
  | incomplete vr view boot => exact h.mainGoto ho (by simp) (by simp)
  | complete vr view p hr hv _ _ =>
    exact h.publish ho (hnil rfl) (Or.inl hpc) hr hv (hstore p _ rfl)
  | panic boot reply => exact h.mainGoto ho (by simp) (by simp)
  | readAgainOk boot reply call => exact h.mainGoto ho (by simp) (by simp)
  | provision boot call pc pc' w reply _ =>
    have hidle := (h.opening.tasks (hnil rfl)).2.1
    refine ⟨ho, fun _ _ => hidle, ?_, ?_, ?_⟩
    · intro r b hm
      have hne := afterMainProvision_ne boot call pc' r b
      rcases hm with hm | ⟨boot', hm⟩
      · exact absurd hm hne.1
      · exact absurd hm (hne.2 boot')
    · intro r b hb
      rw [show (s.mainEffect _).renewal = s.renewal from rfl, hidle] at hb
      cases hb
    · intro p tlsConfig hp
      rw [State.published, show (s.mainEffect _).log = s.log from rfl, hnil rfl] at hp
      cases hp
  | rereadOk boot reply vr _ _ =>
    refine h.mainGoto ho (by simp) ?_
    rintro r b (hm | ⟨_, hm⟩) <;> cases hm
    exact fun _ _ => Build.start_reads _
  | rebuild boot vr b b' a hstep =>
    refine h.mainGoto ho (by simp) ?_
    rintro r b (hm | ⟨_, hm⟩) <;> cases hm
    intro tlsConfig ht
    exact Build.step_reads ht (h.startup vr _ (Or.inr ⟨boot, hpc⟩) tlsConfig ht) hstep
  | recomplete boot vr view p hr hv _ =>
    exact h.publish ho (hnil rfl) (Or.inr ⟨boot, hpc⟩) hr hv (hstore p boot rfl)
  | watch boot reply mtime _ =>
    refine ⟨ho, fun _ _ => h.spawning boot (Or.inl hpc), ?_, h.building, h.served⟩
    intro r b hm
    simp only [MainBuilds, State.mainEffect] at hm
    split at hm <;> simp at hm
  | renew boot reply redirect =>
    have hidle := h.spawning boot (Or.inr hpc)
    refine ⟨ho, ?_, ?_, ?_, h.served.frame rfl (fun _ => rfl) (fun _ hd => hd) ?_⟩
    · intro boot' hm
      rcases hm with hm | hm <;> cases hm
    · intro r b hm
      rcases hm with hm | ⟨_, hm⟩ <;> cases hm
    · intro r b hb
      cases hb
    · intro dir hw
      simp [workDir, hidle] at hw

theorem invariant_reload {s : State H} {r : Reply} {pc : ReloadPc H} {eff : ReloadEffect H}
    (h : Invariant s) (hc : StoresPair s (.reload r)) (hpc : s.reload = some pc)
    (he : reloadStep s pc r = some eff) (ho : Opening (s.reloadEffect eff)) :
    Invariant (s.reloadEffect eff) := by
  cases eff with
  | goto pc' => exact h.frame ho rfl rfl rfl (fun _ => rfl) (fun _ hd => hd)
  | store mtime p =>
    refine ⟨ho, h.spawning, h.startup, h.building, ?_⟩
    intro q tlsConfig hq ht
    obtain rfl : p = q := Option.some.inj hq
    by_cases hd : due s tlsConfig.cacheDir = true
    · exact Or.inr (Or.inl hd)
    · by_cases hw : workDir s = some tlsConfig.cacheDir
      · exact Or.inr (Or.inr hw)
      · have hst : (Writer.reload, p) ∈ storing s (.reload r) := by simp [storing, hpc, he]
        have hsaw := (hc _ hst tlsConfig ht (by simpa using hd)).2 rfl hw
        exact Or.inl (servesPair_of_saw ht hsaw)

theorem Invariant.renewalGoto {s : State H} {pc pc' : RenewalPc H} (h : Invariant s)
    (hpc : s.renewal = some pc) (ho : Opening { s with renewal := some pc' })
    (hw : ∀ r, working pc = some r →
      working pc' = some r ∨ due s r.tlsConfig.cacheDir = true)
    (hb : ∀ r b, pc' = .building r b → b.Reads (s.dirs r.tlsConfig.cacheDir)) :
    Invariant { s with renewal := some pc' } where
  opening := ho
  spawning := fun boot hm => absurd hm (h.spawned hpc boot)
  startup := h.startup
  building := by
    intro r b hm
    exact hb r b (Option.some.inj hm)
  served := by
    refine h.served.frame rfl (fun _ => rfl) (fun _ hd => hd) ?_
    intro dir hdir
    simp only [workDir, hpc, Option.bind_some, Option.map_eq_some_iff] at hdir
    obtain ⟨r, hr, rfl⟩ := hdir
    rcases hw r hr with hr' | hd
    · exact Or.inr (by simp [workDir, hr'])
    · exact Or.inl hd

theorem Invariant.provision {s : State H} {r : RenewalReading H} {call : AcmeProvision.Call}
    {pc pc' : AcmeProvision.Pc} {w : AcmeProvision.World} (h : Invariant s)
    (hpc : s.renewal = some (.provisioning r call pc))
    (ho : Opening (s.renewalEffect
      (.provision r.tlsConfig.cacheDir w (afterRenewalProvision r call pc'))))
    (hfail : ∀ e, pc' = .done (.error e) → dirNeedsRenewal w.files s.wall = true) :
    Invariant (s.renewalEffect
      (.provision r.tlsConfig.cacheDir w (afterRenewalProvision r call pc'))) := by
  have hne := h.opening.of_renewal hpc
  refine ⟨ho, fun boot hm => absurd hm (h.spawned hpc boot), ?_, ?_, ?_⟩
  · intro r' b hm
    have hst : s.main.starting = true := by
      rcases hm with hm | ⟨_, hm⟩
      · rw [show s.main = _ from hm]
        rfl
      · rw [show s.main = _ from hm]
        rfl
    exact absurd (h.opening.starting hst) hne
  · intro r' b hb
    have hb := Option.some.inj hb
    rcases afterRenewalProvision_cases r call pc' with hgo | ⟨_, _, hgo⟩ | ⟨_, _, hgo⟩ <;>
      rw [hgo] at hb <;> cases hb
    exact Build.start_reads _
  · intro p tlsConfig hp ht
    have hold := h.served p tlsConfig hp ht
    by_cases hdir : tlsConfig.cacheDir = r.tlsConfig.cacheDir
    · right
      by_cases hdone : ∃ e, pc' = .done (.error e)
      · obtain ⟨e, rfl⟩ := hdone
        left
        simpa [due, State.renewalEffect, State.provisioned, hdir] using hfail e rfl
      · right
        have hwork : working (afterRenewalProvision r call pc') = some r := by
          rcases afterRenewalProvision_cases r call pc' with hgo | ⟨_, _, hgo⟩ | ⟨e, he, _⟩
          · rw [hgo]
            rfl
          · rw [hgo]
            rfl
          · exact absurd ⟨e, he⟩ hdone
        simp [workDir, State.renewalEffect, hwork, hdir]
    · have hsame : (s.renewalEffect (.provision r.tlsConfig.cacheDir w
          (afterRenewalProvision r call pc'))).dirs tlsConfig.cacheDir =
          s.dirs tlsConfig.cacheDir := Function.update_of_ne hdir ..
      have hwork : workDir s ≠ some tlsConfig.cacheDir := by
        intro hw
        simp only [workDir, hpc, Option.bind_some, working, Option.map_some,
          Option.some.injEq] at hw
        exact hdir hw.symm
      rcases hold with hs | hd | hw
      · left
        rw [hsame]
        exact hs
      · right
        left
        rw [due, hsame]
        exact hd
      · exact absurd hw hwork

theorem due_of_failed {s : State H} {r : RenewalReading H} {call : AcmeProvision.Call}
    {pc : AcmeProvision.Pc} {w : AcmeProvision.World} {reply : AcmeProvision.Reply} {e : ProxyError}
    (hf : FailsWhileDue s (.renewal (.acme reply)))
    (hpc : s.renewal = some (.provisioning r call pc))
    (hstep : AcmeProvision.step call (s.world r.tlsConfig.cacheDir) pc reply =
      some (w, .done (.error e))) : dirNeedsRenewal w.files s.wall = true := by
  have hend : tickEnd s (.renewal (.acme reply)) = some (.gaveUp, r) := by
    simp only [tickEnd, hpc, renewalStep, hstep]
    rfl
  have hcert := AcmeProvision.done_files hstep (f := .cert) (by simp) (by simp)
  have hissued := AcmeProvision.done_files hstep (f := .issuedAt) (by simp) (by simp)
  rw [dirNeedsRenewal_congr s.wall hcert hissued]
  exact hf _ hend rfl

theorem servesPair_of_renewal {s : State H} {reply : Reply} {r : RenewalReading H}
    {view : BuildView} {p : Publication H} {tlsConfig : TlsConfig} (h : Invariant s)
    (hc : StoresPair s (.renewal reply)) (hpc : s.renewal = some (.building r ⟨.ready, view⟩))
    (he : renewalStep s (.building r ⟨.ready, view⟩) reply = some (.store p))
    (hr : p.toReading = r.toReading) (hv : p.view = view) (ht : p.config.tls = some tlsConfig)
    (hd : due s tlsConfig.cacheDir = false) :
    r.tlsConfig = tlsConfig ∧ ServesPair p (s.dirs tlsConfig.cacheDir) := by
  have hst : (Writer.renewal, p) ∈ storing s (.renewal reply) := by simp [storing, hpc, he]
  obtain ⟨hcert, hkey⟩ := (hc _ hst tlsConfig ht hd).1 (by simp)
  have htls : r.tlsConfig = tlsConfig := by
    have hconf := r.configured
    rw [← hr, ht] at hconf
    exact (Option.some.inj hconf).symm
  have hreads := h.building r _ hpc
  rw [htls] at hreads
  exact ⟨htls, servesPair_of_reads ht hv hreads hcert hkey⟩

theorem startProvision_ne (store : Bool) (r r' : RenewalReading H) (b : Build) :
    startProvision store r ≠ .building r' b := by
  unfold startProvision
  split
  · simp
  · split <;> simp

theorem invariant_renewal {s : State H} {r : Reply} {pc : RenewalPc H} {eff : RenewalEffect H}
    (h : Invariant s) (hf : FailsWhileDue s (.renewal r)) (hc : StoresPair s (.renewal r))
    (hpc : s.renewal = some pc) (he : renewalStep s pc r = some eff)
    (ho : Opening (s.renewalEffect eff)) : Invariant (s.renewalEffect eff) := by
  cases renewalStep_cases he with
  | provision rr call apc apc' w reply hstep =>
    refine h.provision hpc ho ?_
    rintro e rfl
    exact due_of_failed hf hpc hstep
  | build rr b b' a hstep =>
    refine h.renewalGoto hpc ho (fun _ hw => Or.inl hw) ?_
    intro rr' b'' hb
    cases hb
    exact Build.step_reads rr.configured (h.building rr b hpc) hstep
  | buildFailed rr view =>
    refine h.renewalGoto hpc ho ?_ (by simp)
    intro rr' hw
    obtain rfl : rr = rr' := Option.some.inj hw
    have hend : tickEnd s (.renewal .proceed) = some (.gaveUp, rr) := by
      simp only [tickEnd, hpc, he]
      rfl
    exact Or.inr (hf _ hend rfl)
  | store rr view p hr hv hflag =>
    refine ⟨ho, fun boot hm => absurd hm (h.spawned hpc boot), h.startup,
      by simp [State.renewalEffect], ?_⟩
    intro q tlsConfig hq ht
    obtain rfl : p = q := Option.some.inj hq
    by_cases hd : due s tlsConfig.cacheDir = true
    · exact Or.inr (Or.inl hd)
    · exact Or.inl (servesPair_of_renewal h hc hpc he hr hv ht (by simpa using hd)).2
  | certMissing rr reply _ =>
    refine h.renewalGoto hpc ho (by simp [working]) ?_
    intro rr' b hb
    exact absurd hb (startProvision_ne _ rr rr' b)
  | due rr reply res _ _ =>
    refine h.renewalGoto hpc ho (by simp [working]) ?_
    intro rr' b hb
    exact absurd hb (startProvision_ne _ rr rr' b)
  | _ => exact h.renewalGoto hpc ho (by simp [working]) (by simp)

theorem invariant_step {s t : State H} {e : Event} (h : Invariant s) (hk : KeepsPair s e)
    (hc : Renewing s e) (hs : Step s e t) : Invariant t := by
  have ho := opening_step h.opening hs
  obtain ⟨hstay, hfails, _, hstores⟩ := hc
  cases hs with
  | main r eff he => exact invariant_main h hstores he ho
  | reload r pc eff hpc he => exact invariant_reload h hstores hpc he ho
  | renewal r pc eff hpc he => exact invariant_renewal h hfails hstores hpc he ho
  | editCache dir files =>
    refine h.frame ho rfl rfl rfl ?_ ?_
    · intro d
      by_cases hd : d = dir
      · subst hd
        simpa [KeepsPair] using hk
      · simp [Function.update_of_ne hd]
    · intro d hd
      by_cases hdir : d = dir
      · subst hdir
        simpa [due] using hstay hd
      · simpa [due, Function.update_of_ne hdir] using hd
  | clock instant wall hle =>
    refine h.frame ho rfl rfl rfl (fun _ => rfl) ?_
    intro d hd
    exact certNeedsRenewal_mono hstay hd
  | acceptError m ha =>
    exact h.mainGoto ho (by simp) (by simp)
  | shutdown ha => exact h.mainGoto ho (by simp) (by simp)
  | _ => exact h.frame ho rfl rfl rfl (fun _ => rfl) (fun _ hd => hd)

theorem tickEnd_goto {s : State H} {reply : Reply} {pc pc' : RenewalPc H}
    {x : TickEnd × RenewalReading H} (hpc : s.renewal = some pc)
    (he : renewalStep s pc reply = some (.goto pc')) (hx : tickEnd s (.renewal reply) = some x) :
    reading pc = some x.2 ∧ x.1 = if (working pc).isSome then .gaveUp else .looked := by
  simp only [tickEnd, hpc, he] at hx
  cases hr : reading pc with
  | none => simp [hr] at hx
  | some r =>
    cases pc' <;> simp only [hr, reduceCtorEq, Option.some.injEq] at hx
    subst hx
    exact ⟨rfl, rfl⟩

theorem served_of_looked {s : State H} {e : Event} {pc : RenewalPc H} {r : RenewalReading H}
    (h : Invariant s) (hl : LooksAtPublished s e) (hpc : s.renewal = some pc)
    (hw : working pc = none) (hx : tickEnd s e = some (.looked, r))
    (hd : due s r.tlsConfig.cacheDir = false) (hidle : reloadIdle s = true) :
    ∃ p, s.published = some p ∧ ServesPair p (s.dirs r.tlsConfig.cacheDir) := by
  obtain ⟨tlsConfig, ht, hdir⟩ := Option.map_eq_some_iff.mp (hl _ hx rfl hd hidle)
  obtain ⟨p, hp, hconf⟩ := Option.bind_eq_some_iff.mp ht
  refine ⟨p, hp, ?_⟩
  rw [← hdir] at hd ⊢
  rcases h.served p tlsConfig hp hconf with hs | hdue | hwork
  · exact hs
  · rw [hd] at hdue
    cases hdue
  · simp [workDir, hpc, hw] at hwork

theorem servedAtTickEnd {s : State H} {e : Event} (h : Invariant s) (hc : Renewing s e) :
    ServedAtTickEnd s e := by
  obtain ⟨_, hfails, hlooks, hstores⟩ := hc
  rintro t ⟨k, r⟩ hn hx hd hidle
  have goto : ∀ {reply pc pc'}, s.renewal = some pc → renewalStep s pc reply = some (.goto pc') →
      e = .renewal reply → t = s.renewalEffect (.goto pc') →
      ∃ p, t.published = some p ∧ ServesPair p (t.dirs r.tlsConfig.cacheDir) := by
    rintro reply pc pc' hpc he rfl rfl
    obtain ⟨hr, hk⟩ := tickEnd_goto hpc he hx
    have hds : due s r.tlsConfig.cacheDir = false := hd
    cases hw : working pc with
    | none =>
      obtain rfl : k = .looked := by simpa [hw] using hk
      have hserved := served_of_looked h hlooks hpc hw hx hds hidle
      exact hserved
    | some rr =>
      obtain rfl : k = .gaveUp := by simpa [hw] using hk
      have hdue := hfails _ hx rfl
      rw [hds] at hdue
      cases hdue
  cases step_of_next hn with
  | renewal reply pc eff hpc he =>
    cases renewalStep_cases he with
    | provision rr call apc apc' w areply hstep =>
      simp only [tickEnd, hpc, he, reading, working, Option.isSome_some, if_true] at hx
      cases apc' with
      | done result =>
        cases result with
        | ok issued => simp [afterRenewalProvision] at hx
        | error m =>
          obtain ⟨rfl, rfl⟩ : TickEnd.gaveUp = k ∧ rr = r := by
            simpa [afterRenewalProvision] using hx
          have hdue := due_of_failed hfails hpc hstep
          simp only [due, State.renewalEffect, State.provisioned, Function.update_self] at hd
          rw [hd] at hdue
          cases hdue
      | _ => simp [afterRenewalProvision] at hx
    | store rr view p hr hv hflag =>
      obtain ⟨rfl, rfl⟩ : TickEnd.stored = k ∧ rr = r := by
        simpa [tickEnd, hpc, he, reading] using hx
      have ht : p.config.tls = some rr.tlsConfig := by
        rw [hr]
        exact rr.configured
      exact ⟨p, rfl, (servesPair_of_renewal h hstores hpc he hr hv ht hd).2⟩
    | _ => exact goto hpc he rfl rfl
  | _ => cases hx

/-- While no failed renewal leaves its directory looking renewed, no tick looks elsewhere than
at the published state's directory, and no state is stored over a newer pair for good, the pair
in the cache is the one served at the end of every tick that leaves nothing due. -/
theorem served_at_tick_end {s u : State H} {tr : List (State H × Event)} (hs : Started s)
    (h : Run next s tr u) (hk : Obeys KeepsPair tr) (hc : Obeys Renewing tr) :
    Obeys ServedAtTickEnd tr := by
  intro p hp
  have hinv : Always Invariant tr u := by
    refine h.always_of (C := fun s e => KeepsPair s e ∧ Renewing s e) ?_ (fun _ hi => hi)
      hs.invariant (hk.and hc)
    intro v e w hv hcond hn
    exact invariant_step hv hcond.1 hcond.2 (step_of_next hn)
  exact servedAtTickEnd (hinv.1 p hp) (hc p hp)

instance (s : State H) (e : Event) : Decidable (FailsWhileDue s e) :=
  inferInstanceAs (Decidable (∀ x ∈ tickEnd s e, _ → _))

instance (s : State H) (e : Event) : Decidable (LooksAtPublished s e) :=
  inferInstanceAs (Decidable (∀ x ∈ tickEnd s e, _ → _ → _ → _))

instance (s : State H) (e : Event) : Decidable (StoresPair s e) :=
  inferInstanceAs (Decidable (∀ x ∈ storing s e, ∀ tlsConfig ∈ x.2.config.tls, _ → _ ∧ _))

instance (s : State H) : (e : Event) → Decidable (StaysDue s e)
  | .clock _ wall => inferInstanceAs (Decidable (s.wall ≤ wall))
  | .editCache dir files =>
    inferInstanceAs (Decidable (due s dir = true → dirNeedsRenewal files s.wall = true))
  | .writeConfig _ | .ping _ _ | .main _ | .reload _ | .renewal _ | .accept | .acceptError _
  | .shutdown | .dispatch => isTrue trivial

instance (s : State H) : (e : Event) → Decidable (KeepsPair s e)
  | .editCache dir files => inferInstanceAs (Decidable (pairOf files = pairOf (s.dirs dir)))
  | .clock _ _ | .writeConfig _ | .ping _ _ | .main _ | .reload _ | .renewal _ | .accept
  | .acceptError _ | .shutdown | .dispatch => isTrue trivial

instance (s : State H) (e : Event) : Decidable (Renewing s e) :=
  inferInstanceAs (Decidable (_ ∧ _ ∧ _ ∧ _))

def sampleRenewed : List Event := sampleStart ++ sampleRenewal ++ sampleBuild.map .renewal

def servedCerts (s : State H) : Option (List Der) :=
  (s.published.bind fun p => p.state.tls).map fun tls => tls.acceptor.certs

theorem served_at_tick_end_renewed : ∃ tr u, Run next sampleBoot tr u ∧
    (u.dirs "/cache" .cert, u.log.length) = (some "new cert", 2) ∧ Obeys ServedAtTickEnd tr := by
  obtain ⟨u, hr, hv⟩ := run_of_view next sampleBoot sampleRenewed
    (fun s => (s.dirs "/cache" .cert, s.log.length)) (some "new cert", 2) rfl
  exact ⟨_, u, hr, hv, served_at_tick_end (boot_started _ _ _ _ _) hr (obeys_of_all rfl)
    (obeys_of_all rfl)⟩

def samplePemDer (pem : String) : Der := pem.toList.map fun c => UInt8.ofNat c.toNat

theorem servedCerts_of_servesPair {t : State sampleHost} {p : Publication sampleHost}
    {files : CacheDir} {cert : String} (hp : t.published = some p) (h : ServesPair p files)
    (hc : files .cert = some cert) : servedCerts t = some [samplePemDer cert] := by
  obtain ⟨tlsConfig, tls, cert', key, _, htls, hc', _, hb⟩ := h
  obtain rfl := Option.some.inj (hc.symm.trans hc')
  obtain rfl := Except.ok.inj hb
  simp [servedCerts, hp, htls, samplePemDer]

/-- The new pair and its `issued_at` are written, then the build cannot read `key.pem`: the tick
ends with nothing due and the old certificate served. -/
theorem old_certificate_served : ¬ ∀ (H : Host) (s u : State H) (tr : List (State H × Event)),
    Started s → Run next s tr u → Obeys KeepsPair tr → Obeys ServedAtTickEnd tr := by
  intro hall
  obtain ⟨v, hr, hv⟩ := run_of_view next sampleBoot
    (sampleStart ++ sampleRenewal ++
      [Reply.noPlugins, .ok, .ok, .ok, .failed].map .renewal)
    (fun s => ((tickEnd s (.renewal .proceed)).map fun x => x.2.tlsConfig.cacheDir,
      (next s (.renewal .proceed)).map fun t => (t.wall, reloadIdle t, t.dirs "/cache" .cert,
        t.dirs "/cache" .issuedAt, servedCerts t)))
    (some "/cache", some (1700000005, true, some "new cert", some "1700000005",
      some [samplePemDer "old cert"])) rfl
  obtain ⟨hend, hnext⟩ := Prod.mk.inj hv
  obtain ⟨x, hx, hdir⟩ := Option.map_eq_some_iff.mp hend
  obtain ⟨t, ht, hview⟩ := Option.map_eq_some_iff.mp hnext
  simp only [Prod.mk.injEq] at hview
  obtain ⟨hwall, hidle, hcert, hissued, hserved⟩ := hview
  have hdue : due t "/cache" = false := by
    rw [due, dirNeedsRenewal, hcert, hissued, hwall]
    decide
  have hobeys := hall _ _ _ _ (boot_started _ _ _ _ _) (hr.snoc ht)
    (obeys_append.mpr ⟨obeys_of_all rfl, by simp [KeepsPair]⟩)
  have hlast : ServedAtTickEnd v (.renewal .proceed) := by simpa using (obeys_append.mp hobeys).2
  rw [← hdir] at hdue hcert
  obtain ⟨p, hp, hpair⟩ := hlast t x ht hx hdue hidle
  have hnew := servedCerts_of_servesPair hp hpair hcert
  rw [hserved] at hnew
  exact absurd hnew (by decide)

end CertificateFreshness
