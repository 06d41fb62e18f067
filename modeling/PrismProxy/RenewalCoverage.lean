import PrismProxy.ProxyServerSteps

/-! # Is a certificate that is served under renewal

Whether the renewal loop is spawned is decided once, from the first config start-up reads;
whether the published state has TLS changes with every store. -/
namespace RenewalCoverage

open TransitionRuns ProxyConfig CertificateCache StatePublication ProxyServer

variable {H : Host}

/-- While the accept loop runs on a published state with TLS there is a renewal loop. -/
def Covered (s : State H) : Prop :=
  s.accepting = true → ∀ p, s.published = some p → p.state.tls.isSome → s.renewal ≠ none

/-- The step in which start-up first reads its config, and finds `[tls]`. -/
def startsWithTls (s : State H) : Event → Bool
  | .main (.call (.fs .ok)) =>
    match s.main, parse H.tomlFromStr s.file.content with
    | .readConfig, .ok config => config.tls.isSome
    | _, _ => false
  | _ => false

def StartedWithTls (tr : List (State H × Event)) : Prop :=
  ∃ p ∈ tr, startsWithTls p.1 p.2 = true

/-- A step that stores, for a config with `[tls]`, a state whose build found both files. -/
def bringsTls (s : State H) (e : Event) : Bool :=
  s.accepting && (storing s e).any fun w =>
    w.2.config.tls.isSome && (w.2.view.certExists && w.2.view.keyExists)

theorem tls_isSome_iff (p : Publication H) : p.state.tls.isSome ↔
    (p.config.tls.isSome && (p.view.certExists && p.view.keyExists)) = true := by
  cases ht : p.config.tls.isSome with
  | true => rw [Bool.true_and, p.tls_isSome_iff ht]
  | false =>
    have hbuilt := (ProxyState.buildState_ok p.built).2.2
    rw [Option.isSome_eq_false_iff, Option.isNone_iff_eq_none] at ht
    rw [ht] at hbuilt
    have hnone : none = p.state.tls := Except.ok.inj hbuilt
    simp [← hnone]

def provisions : MainPc H → Option Boot
  | .readAgain boot | .provisioning boot _ _ | .reread boot | .rebuilding boot _ _
  | .readPort boot => some boot
  | _ => none

structure Planned (s : State H) : Prop where
  opening : Opening s
  spawning : Spawning s
  provisions : ∀ boot, provisions s.main = some boot → boot.hasTlsConfig = true
  plain : ∀ boot, s.main = .stat boot → boot.hasTlsConfig = false →
    ∀ p, s.published = some p → ¬ p.state.tls.isSome

theorem boot_planned (file : FileVersion) (dirs : String → CacheDir) (instant wall : ℕ) :
    Planned (boot H file dirs instant wall) :=
  ⟨boot_opening H file dirs instant wall, boot_spawning H file dirs instant wall,
    (fun _ hb => by cases hb), (fun _ hb => by cases hb)⟩

theorem building_readAgain {s : State H} {r : ValidReading H} {b : Build} {reply : Reply}
    {boot : Boot} (h : mainStep s (.building r b) reply = some (.goto (.readAgain boot))) :
    boot.hasTlsConfig = true ∧ r.config.tls.isSome = true := by
  obtain ⟨stage, view⟩ := b
  cases reply with
  | proceed =>
    cases stage <;> try cases h
    cases hb : finishBuild r.toReading view s.nextFlag with
    | error m => simp [mainStep, hb, leaveOr] at h
    | ok p =>
      obtain ⟨hr, _⟩ := finishBuild_ok hb
      simp only [mainStep, hb, leaveOr, afterBuild, Option.some.injEq] at h
      split at h
      · rename_i htls
        cases h
        rw [← hr]
        simpa using (Bool.and_eq_true_iff.mp htls).1
      · cases h
  | call a => cases a <;> simp [mainStep] at h
  | acme r => cases h

theorem Planned.frame {s t : State H} (h : Planned s) (ho : Opening t) (hs : Spawning t)
    (hp : RenewalCoverage.provisions t.main = RenewalCoverage.provisions s.main ∨
      RenewalCoverage.provisions t.main = none)
    (hm : ∀ boot, t.main = .stat boot → s.main = .stat boot ∧ t.log = s.log) : Planned t := by
  refine ⟨ho, hs, ?_, ?_⟩
  · intro boot hb
    rcases hp with hp | hp
    · exact h.provisions boot (hp ▸ hb)
    · rw [hp] at hb
      cases hb
  · intro boot hstat hfalse p hpub
    obtain ⟨hold, hl⟩ := hm boot hstat
    exact h.plain boot hold hfalse p (by rwa [State.published, hl] at hpub)

theorem planned_main {s : State H} {r : Reply} {eff : MainEffect H} (hs : Planned s)
    (he : mainStep s s.main r = some eff) (ho : Opening (s.mainEffect eff))
    (hsp : Spawning (s.mainEffect eff)) : Planned (s.mainEffect eff) := by
  have decided : ∀ t : State H, Opening t → Spawning t → ∀ boot : Boot,
      RenewalCoverage.provisions t.main = some boot → boot.hasTlsConfig = true →
      (∀ b, t.main ≠ .stat b) → Planned t := by
    intro t ho hsp boot hp htls hno
    refine ⟨ho, hsp, ?_, fun b hb => absurd hb (hno b)⟩
    intro b hb
    rwa [← Option.some.inj (hp.symm.trans hb)]
  generalize hpc : s.main = pc at he
  cases mainStep_cases he with
  | incomplete vr view boot =>
    exact decided _ ho hsp boot rfl (building_readAgain he).1 fun _ hb => by cases hb
  | complete vr view p hr _ _ htls =>
    refine ⟨ho, hsp, (fun _ hb => by cases hb), ?_⟩
    intro boot hb hfalse q hq
    cases hb
    cases hq
    simp only [tls_isSome_iff]
    simp only at hfalse
    simp [hfalse]
  | recomplete boot vr view p hr _ _ =>
    have htrue := hs.provisions boot (by rw [hpc]; rfl)
    refine ⟨ho, hsp, (fun _ hb => by cases hb), ?_⟩
    intro b hb hfalse
    cases hb
    rw [htrue] at hfalse
    cases hfalse
  | watch boot reply mtime _ =>
    refine ⟨ho, hsp, ?_, ?_⟩
    · intro b hb
      simp only [State.mainEffect] at hb
      split at hb
      · cases hb
        assumption
      · cases hb
    · intro b hb
      simp only [State.mainEffect] at hb
      split at hb <;> cases hb
  | provision boot call pc pc' w reply _ =>
    have htrue := hs.provisions boot (by rw [hpc]; rfl)
    simp only [State.mainEffect] at ho hsp ⊢
    rcases afterMainProvision_cases (H := H) boot call pc' with h | ⟨e, h⟩ | h <;>
      rw [h] at ho hsp ⊢
    · exact decided _ ho hsp boot rfl htrue fun _ hb => by cases hb
    · exact hs.frame ho hsp (Or.inr rfl) fun _ hb => by cases hb
    · exact decided _ ho hsp boot rfl htrue fun _ hb => by cases hb
  | readAgainOk boot _ call =>
    exact decided _ ho hsp boot rfl (hs.provisions boot (by rw [hpc]; rfl)) fun _ hb => by cases hb
  | rereadOk boot =>
    exact decided _ ho hsp boot rfl (hs.provisions boot (by rw [hpc]; rfl)) fun _ hb => by cases hb
  | rebuild boot =>
    exact decided _ ho hsp boot rfl (hs.provisions boot (by rw [hpc]; rfl)) fun _ hb => by cases hb
  | _ => exact hs.frame ho hsp (Or.inr rfl) fun _ hb => by cases hb

theorem planned_step {s t : State H} {e : Event} (hs : Planned s) (h : Step s e t) :
    Planned t := by
  have ho := opening_step hs.opening h
  have hsp := spawning_step hs.spawning h
  have noLoop : ∀ boot, s.main = .stat boot → s.reload = none ∧ s.renewal = none := by
    intro boot hm
    exact ⟨hs.spawning.reload (by rw [hm]; rfl), hs.spawning.renewal (by rw [hm]; rfl)⟩
  cases h with
  | main r eff he => exact planned_main hs he ho hsp
  | reload r pc eff hpc he =>
    refine hs.frame ho hsp (Or.inl (by cases eff <;> rfl)) ?_
    intro boot hm
    have hold : s.main = .stat boot := by cases eff <;> exact hm
    rw [(noLoop boot hold).1] at hpc
    cases hpc
  | renewal r pc eff hpc he =>
    refine hs.frame ho hsp (Or.inl (by cases eff <;> rfl)) ?_
    intro boot hm
    have hold : s.main = .stat boot := by cases eff <;> exact hm
    rw [(noLoop boot hold).2] at hpc
    cases hpc
  | acceptError m ha => exact hs.frame ho hsp (Or.inr rfl) fun _ hb => by cases hb
  | shutdown ha => exact hs.frame ho hsp (Or.inr rfl) fun _ hb => by cases hb
  | _ => exact hs.frame ho hsp (Or.inl rfl) fun _ hm => ⟨hm, rfl⟩

theorem accepting_iff {s : State H} : s.accepting = true ↔ s.main = .serving := by
  simp only [State.accepting]
  cases s.main <;> simp

theorem serving_mainStep {s : State H} {r : Reply} : mainStep s .serving r = none := by
  rcases r with _ | a | _ <;> try rfl
  cases a <;> rfl

theorem covered_main {s : State H} {r : Reply} {eff : MainEffect H} (hs : Planned s)
    (he : mainStep s s.main r = some eff) : Covered (s.mainEffect eff) := by
  intro ha p hp ht
  rw [accepting_iff] at ha
  generalize hpc : s.main = pc at he
  cases mainStep_cases he with
  | watch boot reply mtime _ =>
    have hfalse : boot.hasTlsConfig = false := by
      rw [← Bool.not_eq_true]
      intro htrue
      simp [State.mainEffect, htrue] at ha
    exact absurd ht (hs.plain boot hpc hfalse p hp)
  | renew boot reply redirect => exact fun hnone => by cases hnone
  | provision boot call pc pc' w reply _ =>
    simp only [State.mainEffect] at ha
    rcases afterMainProvision_cases (H := H) boot call pc' with h | ⟨e, h⟩ | h <;>
      rw [h] at ha <;> cases ha
  | _ => cases ha

theorem Covered.frame {s t : State H} (h : Covered s) (hm : t.main = s.main) (hl : t.log = s.log)
    (hr : s.renewal ≠ none → t.renewal ≠ none) : Covered t := by
  intro ha p hp ht
  refine hr (h ?_ p (by rwa [State.published, hl] at hp) ht)
  rwa [State.accepting, hm] at ha

/-- Where a served TLS state is under renewal, a step keeps that so exactly when it does not
bring TLS to a server without the loop. -/
theorem covered_step {s t : State H} {e : Event} (hs : Planned s) (hc : Covered s)
    (h : next s e = some t) : Covered t ↔ (bringsTls s e = true → s.renewal ≠ none) := by
  have quiet : bringsTls s e = false → Covered t →
      (Covered t ↔ (bringsTls s e = true → s.renewal ≠ none)) := by
    intro hno ht
    refine iff_of_true ht fun hbring => ?_
    rw [hno] at hbring
    cases hbring
  have notStoring : storing s e = none → bringsTls s e = false := by
    intro hst
    simp [bringsTls, hst]
  cases step_of_next h with
  | main r eff he =>
    refine quiet ?_ (covered_main hs he)
    simp only [bringsTls, Bool.and_eq_false_iff]
    refine Or.inl (Bool.eq_false_iff.mpr fun ha => ?_)
    rw [accepting_iff.mp ha, serving_mainStep] at he
    cases he
  | reload r pc eff hpc he =>
    cases eff with
    | goto pc' => exact quiet (notStoring (by simp [storing, hpc, he])) (hc.frame rfl rfl id)
    | store mtime p =>
      have hst : storing s (.reload r) = some (.reload, p) := by simp [storing, hpc, he]
      simp only [bringsTls, hst, Option.any_some, Bool.and_eq_true_iff (x := s.accepting),
        ← tls_isSome_iff]
      constructor
      · rintro hcov ⟨ha, htls⟩
        exact hcov ha p rfl htls
      · intro hcond ha q hq htls
        cases hq
        exact hcond ⟨ha, htls⟩
  | renewal r pc eff hpc he =>
    refine iff_of_true ?_ fun _ => by simp [hpc]
    intro _ _ _ _
    cases eff <;> simp [State.renewalEffect]
  | acceptError m ha => exact quiet (notStoring rfl) fun hacc => by cases hacc
  | shutdown ha => exact quiet (notStoring rfl) fun hacc => by cases hacc
  | _ => exact quiet (notStoring rfl) (hc.frame rfl rfl id)

def tlsAtStart (s : State H) : Option Bool :=
  match s.main with
  | .building r _ => some r.config.tls.isSome
  | .readAgain boot | .provisioning boot _ _ | .reread boot | .rebuilding boot _ _ | .stat boot
  | .readPort boot => some boot.hasTlsConfig
  | .serving => some s.renewal.isSome
  | _ => none

theorem tlsAtStart_main {s : State H} {r : Reply} {eff : MainEffect H} {b : Bool}
    (hs : Planned s) (he : mainStep s s.main r = some eff)
    (hb : tlsAtStart (s.mainEffect eff) = some b) :
    tlsAtStart s = some b ∨ (s.main = .readConfig ∧ startsWithTls s (.main r) = b) := by
  generalize hpc : s.main = pc at he
  cases mainStep_cases he with
  | leave _ _ m => cases hb
  | panic boot reply => cases hb
  | readOk reply vr hv _ =>
    refine Or.inr ⟨rfl, ?_⟩
    have hparse := vr.parsed
    rw [hv] at hparse
    cases reply with
    | ok => simpa [startsWithTls, hpc, hparse, tlsAtStart, State.mainEffect] using hb
    | failed m => simp [mainStep, State.readValid, readValid, readConfig, leaveOr] at he
    | torn n m => simp [mainStep, State.readValid, readValid, readConfig] at he
  | complete vr view p hr _ _ htls =>
    left
    simpa [tlsAtStart, hpc, State.mainEffect, hr] using hb
  | incomplete vr view boot =>
    left
    obtain ⟨hboot, htls⟩ := building_readAgain he
    simpa [tlsAtStart, hpc, State.mainEffect, hboot, htls] using hb
  | watch boot reply mtime _ =>
    left
    have hnone : s.renewal = none := hs.spawning.renewal (by rw [hpc]; rfl)
    cases htls : boot.hasTlsConfig <;>
      simpa [tlsAtStart, hpc, State.mainEffect, htls, hnone] using hb
  | renew boot reply redirect =>
    left
    have htrue := hs.provisions boot (by rw [hpc]; rfl)
    simpa [tlsAtStart, hpc, State.mainEffect, htrue] using hb
  | provision boot call pc pc' w reply _ =>
    left
    simp only [tlsAtStart, State.mainEffect] at hb
    rcases afterMainProvision_cases (H := H) boot call pc' with h | ⟨m, h⟩ | h <;> rw [h] at hb
    · simpa [tlsAtStart, hpc] using hb
    · cases hb
    · simpa [tlsAtStart, hpc] using hb
  | _ =>
    left
    simpa [tlsAtStart, hpc, State.mainEffect] using hb

theorem tlsAtStart_step {s t : State H} {e : Event} {b : Bool} (hs : Planned s)
    (h : Step s e t) (hb : tlsAtStart t = some b) :
    tlsAtStart s = some b ∨ (s.main = .readConfig ∧ startsWithTls s e = b) := by
  have frame : t.main = s.main → t.renewal.isSome = s.renewal.isSome → tlsAtStart s = some b := by
    intro hm hr
    rwa [tlsAtStart, hm, hr] at hb
  cases h with
  | main r eff he => exact tlsAtStart_main hs he hb
  | reload r pc eff hpc he => exact Or.inl (frame (by cases eff <;> rfl) (by cases eff <;> rfl))
  | renewal r pc eff hpc he =>
    exact Or.inl (frame (by cases eff <;> rfl) (by cases eff <;> simp [State.renewalEffect, hpc]))
  | acceptError m ha => cases hb
  | shutdown ha => cases hb
  | _ => exact Or.inl (frame rfl rfl)

structure Recalls (tr : List (State H × Event)) (s : State H) : Prop where
  planned : Planned s
  unread : s.main = .readConfig → ¬ StartedWithTls tr
  known : ∀ b, tlsAtStart s = some b → (b = true ↔ StartedWithTls tr)

theorem startedWithTls_snoc {tr : List (State H × Event)} {s : State H} {e : Event} :
    StartedWithTls (tr ++ [(s, e)]) ↔ StartedWithTls tr ∨ startsWithTls s e = true := by
  simp only [StartedWithTls, List.mem_append, List.mem_singleton]
  constructor
  · rintro ⟨p, hp | rfl, hst⟩
    · exact Or.inl ⟨p, hp, hst⟩
    · exact Or.inr hst
  · rintro (⟨p, hp, hst⟩ | hst)
    · exact ⟨p, Or.inl hp, hst⟩
    · exact ⟨(s, e), Or.inr rfl, hst⟩

theorem startsWithTls_read {s : State H} {e : Event} (h : startsWithTls s e = true) :
    s.main = .readConfig := by
  unfold startsWithTls at h
  split at h
  · split at h
    · assumption
    · cases h
  · cases h

theorem mainEffect_ne_readConfig {s : State H} {pc : MainPc H} {r : Reply} {eff : MainEffect H}
    (h : mainStep s pc r = some eff) : (s.mainEffect eff).main ≠ .readConfig := by
  cases mainStep_cases h with
  | provision boot call pc pc' w reply _ =>
    simp only [State.mainEffect]
    rcases afterMainProvision_cases (H := H) boot call pc' with h | ⟨m, h⟩ | h <;> rw [h] <;>
      exact fun hm => by cases hm
  | watch boot reply mtime _ =>
    simp only [State.mainEffect]
    split <;> exact fun hm => by cases hm
  | _ => exact fun hm => by cases hm

theorem main_ne_readConfig {s t : State H} {e : Event}
    (hm : s.main ≠ .readConfig ∨ startsWithTls s e = true) (h : Step s e t) :
    t.main ≠ .readConfig := by
  cases h with
  | main r eff he => exact mainEffect_ne_readConfig he
  | reload r pc eff hpc he =>
    have hold := hm.resolve_right (by simp [startsWithTls])
    cases eff <;> exact hold
  | renewal r pc eff hpc he =>
    have hold := hm.resolve_right (by simp [startsWithTls])
    cases eff <;> exact hold
  | acceptError m ha => exact fun hread => by cases hread
  | shutdown ha => exact fun hread => by cases hread
  | _ => exact hm.resolve_right (by simp [startsWithTls])

theorem recalls_step {tr : List (State H × Event)} {s t : State H} {e : Event}
    (hs : Recalls tr s) (h : Step s e t) : Recalls (tr ++ [(s, e)]) t := by
  refine ⟨planned_step hs.planned h, ?_, ?_⟩
  · intro ht hstart
    rcases startedWithTls_snoc.mp hstart with hold | hnew
    · refine main_ne_readConfig (Or.inl fun hread => ?_) h ht
      exact hs.unread hread hold
    · exact main_ne_readConfig (Or.inr hnew) h ht
  · intro b hb
    rw [startedWithTls_snoc]
    rcases tlsAtStart_step hs.planned h hb with hknown | ⟨hread, hnew⟩
    · have hno : startsWithTls s e = false := by
        rw [← Bool.not_eq_true]
        intro hst
        rw [tlsAtStart, startsWithTls_read hst] at hknown
        cases hknown
      rw [hno, ← hs.known b hknown]
      simp
    · rw [hnew]
      simp [hs.unread hread]

theorem recalls_of_run {file : FileVersion} {dirs : String → CacheDir} {instant wall : ℕ}
    {tr : List (State H × Event)} {u : State H}
    (h : Run next (boot H file dirs instant wall) tr u) : Recalls tr u := by
  refine h.traced_invariant ⟨boot_planned file dirs instant wall, ?_, ?_⟩ ?_
  · rintro _ ⟨p, hp, _⟩
    cases hp
  · intro b hb
    cases hb
  · intro tr t e v ht hn
    exact recalls_step ht (step_of_next hn)

/-- A server that accepts connections has a renewal loop exactly if its first config had
`[tls]`. -/
theorem Recalls.serving {tr : List (State H × Event)} {s : State H} (h : Recalls tr s)
    (ha : s.accepting = true) : s.renewal ≠ none ↔ StartedWithTls tr := by
  rw [← h.known s.renewal.isSome (by rw [tlsAtStart, accepting_iff.mp ha]),
    Option.isSome_iff_ne_none]

/-- From start-up on, every served state with TLS is under renewal exactly when the first config
had `[tls]`, or no state with TLS is ever brought in later. -/
theorem covered_iff (H : Host) (file : FileVersion) (dirs : String → CacheDir)
    (instant wall : ℕ) {tr : List (State H × Event)} {u : State H}
    (h : Run next (boot H file dirs instant wall) tr u) :
    Always Covered tr u ↔
      StartedWithTls tr ∨ Obeys (fun s e => bringsTls s e = false) tr := by
  have hiff := h.always_iff (P := Covered) (C := fun s e => bringsTls s e = true → s.renewal ≠ none)
    (fun _ _ _ ht hn => planned_step ht (step_of_next hn))
    (fun _ _ _ ht hc hn => covered_step ht hc hn) (boot_planned file dirs instant wall)
    fun ha => by cases ha
  -- what the run has read by then decides whether there is a loop
  have loop : ∀ p ∈ tr, p.1.accepting = true → (p.1.renewal ≠ none ↔ StartedWithTls tr) := by
    intro p hp ha
    obtain ⟨pre, post, rfl⟩ := List.append_of_mem hp
    obtain ⟨v, hpre, hpost⟩ := h.split
    obtain rfl : p.1 = v := hpost.head.1
    rw [(recalls_of_run hpre).serving ha]
    refine ⟨fun ⟨q, hq, hst⟩ => ⟨q, List.mem_append_left _ hq, hst⟩, ?_⟩
    rintro ⟨q, hq, hst⟩
    rcases List.mem_append.mp hq with hq | hq
    · exact ⟨q, hq, hst⟩
    · have hlater := hpost.invariant_mem (I := fun s => s.main ≠ .readConfig)
        (fun _ _ _ hm hn => main_ne_readConfig (Or.inl hm) (step_of_next hn))
        (by simp [accepting_iff.mp ha]) q hq
      exact absurd (startsWithTls_read hst) hlater
  rw [hiff]
  constructor
  · intro hcond
    by_cases hstart : StartedWithTls tr
    · exact Or.inl hstart
    · refine Or.inr fun p hp => Bool.eq_false_iff.mpr fun hbring => hstart ?_
      exact (loop p hp (Bool.and_eq_true_iff.mp hbring).1).mp (hcond p hp hbring)
  · rintro (hstart | hquiet) p hp hbring
    · exact (loop p hp (Bool.and_eq_true_iff.mp hbring).1).mpr hstart
    · rw [hquiet p hp] at hbring
      cases hbring

theorem covered_iff_started : ∃ tr u, Run next sampleBoot tr u ∧ u.renewal.isSome = true ∧
    (Always Covered tr u ↔
      StartedWithTls tr ∨ Obeys (fun s e => bringsTls s e = false) tr) := by
  obtain ⟨u, hr, hv⟩ := run_of_view next sampleBoot sampleStart (fun s => s.renewal.isSome) true rfl
  exact ⟨_, u, hr, hv, covered_iff _ _ _ _ _ hr⟩

/-- `[tls]` is added after start-up, with a pair in the cache: the reload serves it and nothing
renews it. -/
theorem reload_uncovered : ¬ ∀ (H : Host) (file : FileVersion) (dirs : String → CacheDir)
    (instant wall : ℕ) (tr : List (State H × Event)) (u : State H),
    Run next (boot H file dirs instant wall) tr u → Covered u := by
  intro hall
  obtain ⟨u, hr, hv⟩ := run_of_view next
    (boot optionalTlsHost ⟨1, ""⟩ (fun _ => samplePair) 0 1700000000)
    ([.main .ok, .main .noPlugins, .main .proceed, .main .ok, .writeConfig ⟨2, "tls"⟩] ++
      sampleReload)
    (fun s => (s.accepting, s.published.map fun p => p.state.tls.isSome, s.renewal.isSome))
    (true, some true, false) rfl
  simp only [Prod.mk.injEq, Option.map_eq_some_iff] at hv
  obtain ⟨ha, ⟨p, hp, htls⟩, hnone⟩ := hv
  have hsome := Option.isSome_iff_ne_none.mpr (hall _ _ _ _ _ _ u hr ha p hp htls)
  rw [hnone] at hsome
  cases hsome

end RenewalCoverage
