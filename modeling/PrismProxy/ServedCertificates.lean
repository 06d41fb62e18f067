import PrismProxy.CertificateFreshness
import PrismProxy.RenewalSchedule

/-! # How old the served certificate is

The renewal loop on its ticks, with the reload loop beside it. What is served is the pair that
the last renewal left, and the schedule says how old that can get. -/
namespace ServedCertificates

open TransitionRuns ProxyConfig CertificateCache StatePublication RenewalTicks
open ProxyServer hiding State next
open CertificateFreshness (ServesPair servesPair_of_reads reloadIdle KeepsPair)
open RenewalSchedule (Setting AtMostFailures)

variable {H : Host}

/-- The last tick of the log that renewed. -/
def LastRenewed (log : List Tick) (t : Tick) : Prop :=
  ∃ earlier later, log = earlier ++ t :: later ∧ t.outcome = .renewed ∧
    ∀ r ∈ later, r.outcome ≠ .renewed

theorem lastRenewed_renewed {log : List Tick} {x t : Tick} (hx : x.outcome = .renewed)
    (h : LastRenewed (log ++ [x]) t) : t = x := by
  obtain ⟨earlier, later, heq, _, hquiet⟩ := h
  rcases List.eq_nil_or_concat later with rfl | ⟨front, y, rfl⟩
  · exact (List.singleton_inj.mp (List.append_inj' heq rfl).2).symm
  · have hlast : log ++ [x] = (earlier ++ t :: front) ++ [y] := by simpa using heq
    obtain rfl := List.singleton_inj.mp (List.append_inj' hlast rfl).2
    exact absurd hx (hquiet x (by simp))

theorem lastRenewed_quiet {log : List Tick} {x t : Tick} (hx : x.outcome ≠ .renewed)
    (h : LastRenewed (log ++ [x]) t) : LastRenewed log t := by
  obtain ⟨earlier, later, heq, ht, hquiet⟩ := h
  rcases List.eq_nil_or_concat later with rfl | ⟨front, y, rfl⟩
  · have hxt := List.singleton_inj.mp (List.append_inj' heq rfl).2
    rw [hxt] at hx
    exact absurd ht hx
  · have hlast : log ++ [x] = (earlier ++ t :: front) ++ [y] := by simpa using heq
    refine ⟨earlier, front, (List.append_inj' hlast rfl).1, ht, ?_⟩
    intro r hr
    exact hquiet r (by simp [hr])

def atWork (s : ProxyServer.State H) : Bool := (s.renewal.bind CertificateFreshness.working).isSome

/-- The files a tick at work has set out to replace, and else those in the cache. -/
def inForce (dir : String) (s : RenewalTicks.State H) : CacheDir :=
  if atWork s.server then s.found else s.server.dirs dir

/-- An attempt that fails leaves the pair as the tick found it. -/
def failsWhole (tlsConfig : TlsConfig) (s : RenewalTicks.State H) (e : Event) : Bool :=
  match s.server.renewal, RenewalTicks.next s e with
  | some (.provisioning _ _ _), some t =>
    match t.server.renewal with
    | some .tick => pairOf (t.server.dirs tlsConfig.cacheDir) = pairOf s.found
    | _ => true
  | _, _ => true

/-- A tick that has provisioned ends with a state stored. -/
def storesRenewed (s : RenewalTicks.State H) (e : Event) : Bool :=
  match s.server.renewal, RenewalTicks.next s e with
  | some (.building _ _), some t =>
    match t.server.renewal with
    | some .tick => (storing s.server e).isSome
    | _ => true
  | _, _ => true

/-- A reload builds with the same `[tls]` or none, and while no tick is at work. -/
def reloadsApart (tlsConfig : TlsConfig) (s : RenewalTicks.State H) : Bool :=
  match s.server.reload with
  | some (.building _ r _) =>
    !atWork s.server && (r.config.tls.isNone || r.config.tls = some tlsConfig)
  | _ => true

def Steady (tlsConfig : TlsConfig) (s : RenewalTicks.State H) (e : Event) : Prop :=
  KeepsPair s.server e ∧
    (failsWhole tlsConfig s e && storesRenewed s e && reloadsApart tlsConfig s) = true

instance (tlsConfig : TlsConfig) (s : RenewalTicks.State H) (e : Event) :
    Decidable (Steady tlsConfig s e) := inferInstanceAs (Decidable (_ ∧ _))

def ServesOnly (s : ProxyServer.State H) (files : CacheDir) : Prop :=
  ∀ p, s.published = some p → p.state.tls.isSome = true → ServesPair p files

structure Invariant (S : Setting) (s : RenewalTicks.State H) : Prop where
  schedule : RenewalSchedule.Invariant S s
  reload : ∀ mtime r b, s.server.reload = some (.building mtime r b) →
    ∀ tlsConfig, r.config.tls = some tlsConfig → b.Reads (s.server.dirs tlsConfig.cacheDir)
  renewal : ∀ r b, s.server.renewal = some (.building r b) →
    b.Reads (s.server.dirs r.tlsConfig.cacheDir)
  served : ∀ t, LastRenewed s.log t →
    pairOf (inForce S.tlsConfig.cacheDir s) = pairOf t.left ∧ ServesOnly s.server t.left

variable {S : Setting} {s : RenewalTicks.State H} {v : ProxyServer.State H}

theorem atWork_congr {s v : ProxyServer.State H} (h : v.renewal = s.renewal) :
    atWork v = atWork s := by
  unfold atWork
  rw [h]

theorem tls_configured (p : Publication H) (h : p.state.tls.isSome = true) :
    ∃ tlsConfig, p.config.tls = some tlsConfig := by
  rcases ProxyState.buildTls_ok (ProxyState.buildState_ok p.built).2.2 with ⟨hnone, _⟩ | hok
  · rw [hnone] at h
    cases h
  · obtain ⟨tlsConfig, _, _, _, ht, _⟩ := hok
    exact ⟨tlsConfig, ht⟩

theorem stored_serves {p : Publication H} {view : ProxyState.BuildView} {tlsConfig : TlsConfig}
    {files : CacheDir} (hv : p.view = view) (ht : p.config.tls = some tlsConfig)
    (hr : Build.Reads ⟨.ready, view⟩ files) (hs : p.state.tls.isSome = true) :
    ServesPair p files := by
  have hexist := (p.tls_isSome_iff (by rw [ht]; rfl)).mp hs
  obtain ⟨hcert, hkey⟩ := (Bool.and_eq_true _ _).mp hexist
  exact servesPair_of_reads ht hv hr hcert hkey

theorem ServesOnly.frame {s v : ProxyServer.State H} {files : CacheDir} (h : ServesOnly s files)
    (hl : v.log = s.log) : ServesOnly v files := by
  intro p hp
  rw [ProxyServer.State.published, hl] at hp
  exact h p hp

theorem Invariant.beside (h : Invariant S s) (hschedule : RenewalSchedule.Invariant S (s.observe v))
    (hr : v.renewal = s.server.renewal)
    (hp : ∀ dir, pairOf (v.dirs dir) = pairOf (s.server.dirs dir))
    (hreload : ∀ mtime r b, v.reload = some (.building mtime r b) →
      ∀ tlsConfig, r.config.tls = some tlsConfig → b.Reads (v.dirs tlsConfig.cacheDir))
    (hserved : ∀ t, LastRenewed s.log t → ServesOnly v t.left) : Invariant S (s.observe v) := by
  have hobserve := RenewalSchedule.observe_same hr
  have hserver : (s.observe v).server = v := RenewalSchedule.observe_server
  refine ⟨hschedule, ?_, ?_, ?_⟩
  · rw [hserver]
    exact hreload
  · rw [hserver]
    intro r b hb
    rw [hr] at hb
    exact (h.renewal r b hb).congr (hp _)
  · rw [hobserve]
    intro t ht
    refine ⟨?_, hserved t ht⟩
    rw [← (h.served t ht).1]
    unfold inForce
    simp only [atWork_congr hr]
    split
    · rfl
    · exact hp _

theorem Invariant.apart (h : Invariant S s) (hschedule : RenewalSchedule.Invariant S (s.observe v))
    (hr : v.renewal = s.server.renewal) (hreload : v.reload = s.server.reload)
    (hl : v.log = s.server.log)
    (hp : ∀ dir, pairOf (v.dirs dir) = pairOf (s.server.dirs dir)) : Invariant S (s.observe v) := by
  refine h.beside hschedule hr hp ?_ fun t ht => (h.served t ht).2.frame hl
  intro mtime r b hb tlsConfig htls
  rw [hreload] at hb
  exact (h.reload mtime r b hb tlsConfig htls).congr (hp _)

theorem invariant_reload {r : Reply} {pc : ReloadPc H} {eff : ReloadEffect H}
    (h : Invariant S s) (ha : reloadsApart S.tlsConfig s = true)
    (hschedule : RenewalSchedule.Invariant S (s.observe (s.server.reloadEffect eff)))
    (hpc : s.server.reload = some pc) (he : reloadStep s.server pc r = some eff) :
    Invariant S (s.observe (s.server.reloadEffect eff)) := by
  cases reloadStep_cases he with
  | readOk mtime reply vr _ _ =>
    refine h.beside hschedule rfl (fun _ => rfl) ?_ fun t ht => (h.served t ht).2
    rintro _ _ _ hb _ _
    cases hb
    exact Build.start_reads _
  | build mtime vr b b' a step =>
    refine h.beside hschedule rfl (fun _ => rfl) ?_ fun t ht => (h.served t ht).2
    rintro _ _ _ hb tlsConfig htls
    cases hb
    exact Build.step_reads htls (h.reload mtime vr b hpc tlsConfig htls) step
  | store mtime vr view p hreading hview hflag =>
    refine h.beside hschedule rfl (fun _ => rfl) (by rintro _ _ _ hb; cases hb) ?_
    intro t ht q hq htls
    obtain rfl : p = q := Option.some.inj hq
    obtain ⟨tlsConfig, hconf⟩ := tls_configured p htls
    have hconf' : vr.config.tls = some tlsConfig := by rw [← hconf, hreading]
    simp only [reloadsApart, hpc, Bool.and_eq_true, Bool.or_eq_true, Bool.not_eq_true',
      decide_eq_true_eq] at ha
    obtain ⟨hidle, hsame⟩ := ha
    obtain rfl : tlsConfig = S.tlsConfig := by
      rcases hsame with hnone | hsome
      · rw [hconf'] at hnone
        cases hnone
      · exact Option.some.inj (hconf'.symm.trans hsome)
    have hpair := (h.served t ht).1
    rw [inForce, hidle] at hpair
    have hserves := stored_serves hview hconf (h.reload mtime vr _ hpc S.tlsConfig hconf') htls
    exact hserves.congr hpair.symm
  | _ =>
    refine h.beside hschedule rfl (fun _ => rfl) ?_ fun t ht => (h.served t ht).2
    rintro _ _ _ hb
    cases hb

theorem no_build {tlsConfig : TlsConfig} (ha : reloadsApart tlsConfig s = true)
    (hw : atWork s.server = true) {mtime : ℕ} {r : ValidReading H} {b : Build} :
    s.server.reload ≠ some (.building mtime r b) := by
  intro hb
  simp [reloadsApart, hb, hw] at ha

theorem Invariant.looks (h : Invariant S s)
    (hschedule : RenewalSchedule.Invariant S (s.observe v)) (hs : atWork s.server = false)
    (hv : atWork v = false) (hreload : v.reload = s.server.reload) (hl : v.log = s.server.log)
    (hd : v.dirs = s.server.dirs)
    (hlog : ∀ t, LastRenewed (s.observe v).log t → LastRenewed s.log t) :
    Invariant S (s.observe v) := by
  have hserver : (s.observe v).server = v := RenewalSchedule.observe_server
  refine ⟨hschedule, ?_, ?_, ?_⟩
  · rw [hserver, hreload, hd]
    exact h.reload
  · rw [hserver]
    intro r b hb
    rw [atWork, hb] at hv
    cases hv
  · intro t ht
    obtain ⟨hpair, hserves⟩ := h.served t (hlog t ht)
    rw [inForce, hs] at hpair
    rw [inForce, hserver, hv, hd]
    exact ⟨hpair, hserves.frame hl⟩

theorem Invariant.begins {r : RenewalReading H} (h : Invariant S s)
    (hr : s.server.renewal = some (.checkCert r) ∨ s.server.renewal = some (.checkIssuedAt r))
    (hschedule : RenewalSchedule.Invariant S
      (s.observe (s.server.renewalEffect (.goto (startProvision s.server.challengeStore r))))) :
    Invariant S
      (s.observe (s.server.renewalEffect (.goto (startProvision s.server.challengeStore r)))) := by
  have hcfg : r.tlsConfig = S.tlsConfig := by
    rcases hr with hr | hr
    · exact (h.schedule.placed hr).1
    · exact (h.schedule.placed hr).1
  have hidle : atWork s.server = false := by
    rcases hr with hr | hr <;> simp [atWork, hr, CertificateFreshness.working]
  have hstart : startProvision s.server.challengeStore r =
      .provisioning r ⟨.provisionWithStore, r.tlsConfig⟩ .createDir := by
    rw [h.schedule.around.challengeStore]
    rfl
  rw [hstart] at hschedule ⊢
  have hobserve : s.observe (s.server.renewalEffect
      (.goto (.provisioning r ⟨.provisionWithStore, r.tlsConfig⟩ .createDir))) =
      { s with
        server := s.server.renewalEffect
          (.goto (.provisioning r ⟨.provisionWithStore, r.tlsConfig⟩ .createDir))
        found := s.server.dirs r.tlsConfig.cacheDir
        now := s.server.wall } := by
    rcases hr with hr | hr <;>
      simp only [RenewalTicks.State.observe, hr, ProxyServer.State.renewalEffect]
  rw [hobserve] at hschedule ⊢
  refine ⟨hschedule, h.reload, (by rintro _ _ hb; cases hb), ?_⟩
  intro t ht
  obtain ⟨hpair, hserves⟩ := h.served t ht
  rw [inForce, hidle] at hpair
  refine ⟨?_, hserves⟩
  rw [← hpair, ← hcfg]
  rfl

theorem Invariant.works (h : Invariant S s) (ha : reloadsApart S.tlsConfig s = true)
    (hschedule : RenewalSchedule.Invariant S { s with server := v })
    (hs : atWork s.server = true) (hv : atWork v = true) (hreload : v.reload = s.server.reload)
    (hl : v.log = s.server.log)
    (hb : ∀ r b, v.renewal = some (.building r b) → b.Reads (v.dirs r.tlsConfig.cacheDir)) :
    Invariant S { s with server := v } := by
  refine ⟨hschedule, ?_, hb, ?_⟩
  · intro mtime r b hbuild
    simp only [hreload] at hbuild
    exact absurd hbuild (no_build ha hs)
  · intro t ht
    obtain ⟨hpair, hserves⟩ := h.served t ht
    rw [inForce, hs] at hpair
    rw [inForce, hv]
    exact ⟨hpair, hserves.frame hl⟩

theorem Invariant.fails {dir : String} (h : Invariant S s)
    (ha : reloadsApart S.tlsConfig s = true)
    (hschedule : RenewalSchedule.Invariant S (s.finish v s.found s.now .failed dir))
    (hs : atWork s.server = true) (hv : v.renewal = some .tick)
    (hreload : v.reload = s.server.reload) (hl : v.log = s.server.log)
    (hwhole : pairOf (v.dirs S.tlsConfig.cacheDir) = pairOf s.found) :
    Invariant S (s.finish v s.found s.now .failed dir) := by
  have hidle : atWork v = false := by simp [atWork, hv, CertificateFreshness.working]
  refine ⟨hschedule, ?_, ?_, ?_⟩
  · intro mtime r b hbuild
    simp only [RenewalTicks.State.finish, hreload] at hbuild
    exact absurd hbuild (no_build ha hs)
  · intro r b hb
    simp only [RenewalTicks.State.finish, hv] at hb
    cases hb
  · intro t ht
    obtain ⟨hpair, hserves⟩ := h.served t (lastRenewed_quiet (by simp) ht)
    rw [inForce, hs] at hpair
    refine ⟨?_, hserves.frame hl⟩
    rw [inForce, RenewalTicks.State.finish, hidle]
    exact hwhole.trans hpair

theorem Invariant.renews {r : RenewalReading H} {view : ProxyState.BuildView} {p : Publication H}
    (h : Invariant S s) (ha : reloadsApart S.tlsConfig s = true)
    (hr : s.server.renewal = some (.building r ⟨.ready, view⟩))
    (hp : p.toReading = r.toReading) (hview : p.view = view)
    (hschedule : RenewalSchedule.Invariant S (s.finish (s.server.renewalEffect (.store p)) s.found
      s.now .renewed r.tlsConfig.cacheDir)) :
    Invariant S (s.finish (s.server.renewalEffect (.store p)) s.found s.now .renewed
      r.tlsConfig.cacheDir) := by
  have hcfg : r.tlsConfig = S.tlsConfig := (h.schedule.placed hr).1
  have hs : atWork s.server = true := by simp [atWork, hr, CertificateFreshness.working]
  refine ⟨hschedule, ?_, (by rintro _ _ hb; cases hb), ?_⟩
  · intro mtime r b hbuild
    exact absurd hbuild (no_build ha hs)
  · intro t ht
    obtain rfl := lastRenewed_renewed rfl ht
    refine ⟨by rw [hcfg]; rfl, ?_⟩
    intro q hq htls
    obtain rfl : p = q := Option.some.inj hq
    have hconf : p.config.tls = some r.tlsConfig := by
      rw [hp]
      exact r.configured
    exact stored_serves hview hconf (h.renewal r _ hr) htls

theorem invariant_looking {r : Reply} {pc : RenewalPc H} {eff : RenewalEffect H}
    (h : Invariant S s) (hpc : s.server.renewal = some pc)
    (hidle : CertificateFreshness.working pc = none)
    (hschedule : RenewalSchedule.Invariant S (s.observe (s.server.renewalEffect eff)))
    (he : renewalStep s.server pc r = some eff) :
    Invariant S (s.observe (s.server.renewalEffect eff)) := by
  have hs : atWork s.server = false := by simp [atWork, hpc, hidle]
  cases renewalStep_cases he with
  | fire | readFailed reply | readOk reply reading version readAt | certFound reading reply found =>
    refine h.looks hschedule hs rfl rfl rfl rfl ?_
    simp [RenewalTicks.State.observe, hpc, ProxyServer.State.renewalEffect]
  | notDue reading reply res read due =>
    refine h.looks hschedule hs rfl rfl rfl rfl ?_
    intro t ht
    simp only [RenewalTicks.State.observe, hpc, ProxyServer.State.renewalEffect,
      RenewalTicks.State.finish] at ht
    exact lastRenewed_quiet (by simp) ht
  | certMissing reading reply missing => exact h.begins (Or.inl hpc) hschedule
  | due reading reply res read due => exact h.begins (Or.inr hpc) hschedule
  | _ => cases hidle

theorem invariant_provisioning {r : Reply} {reading : RenewalReading H} {call : AcmeProvision.Call}
    {pc : AcmeProvision.Pc} {eff : RenewalEffect H} (h : Invariant S s)
    (ha : reloadsApart S.tlsConfig s = true)
    (hr : s.server.renewal = some (.provisioning reading call pc))
    (hwhole : (s.server.renewalEffect eff).renewal = some .tick →
      pairOf ((s.server.renewalEffect eff).dirs S.tlsConfig.cacheDir) = pairOf s.found)
    (hschedule : RenewalSchedule.Invariant S (s.observe (s.server.renewalEffect eff)))
    (he : renewalStep s.server (.provisioning reading call pc) r = some eff) :
    Invariant S (s.observe (s.server.renewalEffect eff)) := by
  have hs : atWork s.server = true := by simp [atWork, hr, CertificateFreshness.working]
  cases renewalStep_cases he with
  | provision _ _ _ pc' w reply step =>
    rcases afterRenewalProvision_cases reading call pc' with hgo | ⟨issued, _, hgo⟩ | ⟨e, _, hgo⟩
    · rw [hgo] at hschedule ⊢
      rw [RenewalSchedule.observe_goes hr rfl (Or.inl ⟨_, _, _, rfl⟩)
        (fun hno => by cases hno)] at hschedule ⊢
      exact h.works ha hschedule hs rfl rfl rfl (by rintro _ _ hb; cases hb)
    · rw [hgo] at hschedule ⊢
      rw [RenewalSchedule.observe_goes hr rfl (Or.inl ⟨_, _, _, rfl⟩)
        (fun hno => by cases hno)] at hschedule ⊢
      refine h.works ha hschedule hs rfl rfl rfl ?_
      rintro _ _ hb
      cases hb
      exact Build.start_reads _
    · rw [hgo] at hwhole hschedule ⊢
      have hobserve : s.observe (s.server.renewalEffect
          (.provision reading.tlsConfig.cacheDir w .tick)) =
          s.finish (s.server.renewalEffect (.provision reading.tlsConfig.cacheDir w .tick))
            s.found s.now .failed reading.tlsConfig.cacheDir := by
        simp only [RenewalTicks.State.observe, hr, ProxyServer.State.renewalEffect]
      rw [hobserve] at hschedule ⊢
      exact h.fails ha hschedule hs rfl rfl rfl (hwhole rfl)

theorem invariant_building {r : Reply} {reading : RenewalReading H} {b : Build}
    {eff : RenewalEffect H} (h : Invariant S s) (ha : reloadsApart S.tlsConfig s = true)
    (hr : s.server.renewal = some (.building reading b))
    (hstores : (s.server.renewalEffect eff).renewal = some .tick →
      (storing s.server (.renewal r)).isSome)
    (hschedule : RenewalSchedule.Invariant S (s.observe (s.server.renewalEffect eff)))
    (he : renewalStep s.server (.building reading b) r = some eff) :
    Invariant S (s.observe (s.server.renewalEffect eff)) := by
  have hs : atWork s.server = true := by simp [atWork, hr, CertificateFreshness.working]
  cases renewalStep_cases he with
  | build _ _ b' a step =>
    rw [RenewalSchedule.observe_goes hr rfl (Or.inr ⟨_, _, rfl⟩)
      (fun hno => by cases hno)] at hschedule ⊢
    refine h.works ha hschedule hs rfl rfl rfl ?_
    rintro _ _ hb
    cases hb
    exact Build.step_reads reading.configured (h.renewal reading b hr) step
  | buildFailed _ view =>
    have hno := hstores rfl
    simp [storing, hr, he] at hno
  | store _ view p hreading hview _ =>
    have hobserve : s.observe (s.server.renewalEffect (.store p)) =
        s.finish (s.server.renewalEffect (.store p)) s.found s.now .renewed
          reading.tlsConfig.cacheDir := by
      simp only [RenewalTicks.State.observe, hr, ProxyServer.State.renewalEffect]
    rw [hobserve] at hschedule ⊢
    exact h.renews ha hr hreading hview hschedule

theorem invariant_step {t : RenewalTicks.State H} {e : Event} (h : Invariant S s)
    (hreg : Regular S.tlsConfig s e) (hsteady : Steady S.tlsConfig s e)
    (hn : RenewalTicks.next s e = some t) : Invariant S t := by
  have hschedule := RenewalSchedule.invariant_step h.schedule hreg hn
  obtain ⟨hkeeps, hall⟩ := hsteady
  simp only [Bool.and_eq_true] at hall
  obtain ⟨⟨hwhole, hstores⟩, hapart⟩ := hall
  have hn' := hn
  unfold RenewalTicks.next at hn'
  split at hn'
  · cases hn'
  obtain ⟨v, hv, rfl⟩ := Option.map_eq_some_iff.mp hn'
  cases step_of_next hv with
  | main r eff he =>
    rw [h.schedule.around.no_main] at he
    cases he
  | reload r pc eff hpc he => exact invariant_reload h hapart hschedule hpc he
  | renewal r pc eff hpc he =>
    cases pc with
    | provisioning reading call pc =>
      refine invariant_provisioning h hapart hpc (fun htick => ?_) hschedule he
      simpa only [failsWhole, hpc, hn, RenewalSchedule.observe_server, htick,
        decide_eq_true_eq] using hwhole
    | building reading b =>
      refine invariant_building h hapart hpc (fun htick => ?_) hschedule he
      simpa only [storesRenewed, hpc, hn, RenewalSchedule.observe_server, htick] using hstores
    | _ => exact invariant_looking h hpc rfl hschedule he
  | editCache dir files =>
    refine h.apart hschedule rfl rfl rfl ?_
    intro dir'
    by_cases hdir : dir' = dir
    · subst hdir
      simpa [KeepsPair] using hkeeps
    · simp only [Function.update_of_ne hdir]
  | _ => exact h.apart hschedule rfl rfl rfl fun _ => rfl

theorem start_invariant {tlsConfig : TlsConfig} {server : ProxyServer.State H}
    (h : StartsLoop tlsConfig server) (hr : reloadIdle server = true) :
    Invariant ⟨tlsConfig, server.wall, RenewalSchedule.kept (server.dirs tlsConfig.cacheDir)⟩
      (start server) := by
  refine ⟨RenewalSchedule.start_invariant h, ?_, ?_, ?_⟩
  · intro mtime r b hb
    simp only [start] at hb
    simp [reloadIdle, hb] at hr
  · intro r b hb
    simp only [start, h.renewal] at hb
    cases hb
  · rintro t ⟨earlier, later, hlog, _⟩
    simp [start] at hlog

/-- What is served since tick `t` renewed: its pair, which is younger than `62 + f` days if no more
than `f` attempts in a row fail, and so younger than the 90 days of a certificate for `f` up to
27. -/
structure ServedYoung (u : RenewalTicks.State H) (t : Tick) : Prop where
  pair : ∀ p, u.server.published = some p → p.state.tls.isSome = true → ServesPair p t.left
  young : ∃ issued, Records t.left issued ∧ ∀ f, AtMostFailures f u.log →
    u.server.wall < issued + (62 + f) * period ∧ (f ≤ 27 → u.server.wall < issued + 90 * period)

theorem Invariant.servedYoung {u : RenewalTicks.State H} (h : Invariant S u) {t : Tick}
    (ht : LastRenewed u.log t) : ServedYoung u t := by
  refine ⟨(h.served t ht).2, ?_⟩
  obtain ⟨earlier, later, hlog, hrenewed, hquiet⟩ := ht
  have hschedule := h.schedule.schedule
  have hat : u.log[earlier.length]? = some t := by simp [hlog]
  obtain ⟨issued, hissued, _⟩ := hschedule.renewed _ t hat hrenewed
  refine ⟨issued, hissued, ?_⟩
  intro f hf
  have hyoung : u.server.wall < issued + (62 + f) * period := by
    by_contra hold
    obtain ⟨j, t', _, hj, hget, hrenewed', _⟩ :=
      hschedule.replaced f _ t issued hf hat hrenewed hissued (Nat.le_of_not_lt hold)
    -- a tick that renewed after the last one that did
    have hmem : t' ∈ later := by
      rw [hlog, List.getElem?_append_right (Nat.le_of_lt hj)] at hget
      obtain ⟨k, hk⟩ := Nat.exists_eq_add_of_lt hj
      rw [show j - earlier.length = k + 1 by omega, List.getElem?_cons_succ] at hget
      exact List.mem_of_getElem? hget
    exact hquiet t' hmem hrenewed'
  refine ⟨hyoung, ?_⟩
  intro hfew
  have hmul : (62 + f) * period ≤ 90 * period := Nat.mul_le_mul_right period (by omega)
  omega

/-- Over every run of the loops: once a renewal has succeeded, what is published with TLS serves
the pair of the last renewal that did, and the schedule bounds the age of that. -/
theorem served_young {tlsConfig : TlsConfig} {server : ProxyServer.State H}
    (hs : StartsLoop tlsConfig server) (hidle : reloadIdle server = true)
    {tr : List (RenewalTicks.State H × Event)} {u : RenewalTicks.State H}
    (h : Run RenewalTicks.next (start server) tr u) (hr : Obeys (Regular tlsConfig) tr)
    (hsteady : Obeys (Steady tlsConfig) tr) {t : Tick} (ht : LastRenewed u.log t) :
    ServedYoung u t := by
  have hinv := h.invariant_of (C := fun s e => Regular tlsConfig s e ∧ Steady tlsConfig s e)
    (I := Invariant ⟨tlsConfig, server.wall, RenewalSchedule.kept (server.dirs tlsConfig.cacheDir)⟩)
    (fun s e v hi hc hn => invariant_step hi hc.1 hc.2 hn) (start_invariant hs hidle)
    (hr.and hsteady)
  exact hinv.servedYoung ht

theorem served_young_renewed : ∃ tr u t, Run RenewalTicks.next (start sampleServing) tr u ∧
    u.log.map Tick.outcome = [.renewed] ∧ LastRenewed u.log t ∧ ServedYoung u t := by
  let es := sampleRenewal ++ sampleBuild.map .renewal
  obtain ⟨u, hr, hlog⟩ := run_of_view RenewalTicks.next (start sampleServing) es
    (fun s => s.log.map Tick.outcome) [.renewed] rfl
  have hs : StartsLoop RenewalSchedule.sampleTls sampleServing :=
    ⟨rfl, rfl, rfl, by decide, 0, Nat.zero_le _, Or.inr ⟨rfl, rfl⟩⟩
  have hregular : Obeys (Regular RenewalSchedule.sampleTls)
      (traceOf RenewalTicks.next (start sampleServing) es) := obeys_of_all rfl
  have hsteady : Obeys (Steady RenewalSchedule.sampleTls)
      (traceOf RenewalTicks.next (start sampleServing) es) := obeys_of_all rfl
  obtain ⟨t, hone, hrenewed⟩ := List.map_eq_singleton_iff.mp hlog
  have ht : LastRenewed u.log t := ⟨[], [], hone, hrenewed, by simp⟩
  exact ⟨_, u, t, hr, hlog, ht, served_young hs rfl hr hregular hsteady ht⟩

end ServedCertificates
