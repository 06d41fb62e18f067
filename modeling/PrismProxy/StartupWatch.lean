import PrismProxy.PublicationOrder

/-! # What start-up hands to the reload loop

Start-up reads the config up to three times, builds the initial state from its last read and
asks for the modification time afterwards. The reload loop ignores whatever is not newer. -/
namespace StartupWatch

open TransitionRuns ProxyConfig StatePublication ProxyServer PublicationOrder

variable {H : Host}

def initial (s : State H) : Option (Publication H) := s.log.getLast?

/-- The modification time given to the reload loop is not above that of the version the
initial state was built from. -/
def KeepsEdits (s : State H) : Event → Prop
  | .main r => ∀ mtime boot, mainStep s s.main r = some (.watch mtime boot) →
    ∀ p, initial s = some p → mtime ≤ p.version.mtime
  | _ => True

def EditsSeen (s : State H) : Prop :=
  ∀ p, initial s = some p → s.reload ≠ none → s.file ≠ p.version → s.lastMtime < s.file.mtime

def reloadStores (s : State H) (e : Event) : Bool := (storing s e).any fun w => w.1 == .reload

def NotPanicked (s : State H) : Prop := s.main ≠ .panicked

structure NoEditLost (tr : List (State H × Event)) (u : State H) : Prop where
  handed : Obeys KeepsEdits tr
  seen : Obeys (fun s e => reloadStores s e = false) tr → EditsSeen u
  noPanic : Always NotPanicked tr u

/-- When the modification time is read the file is still the version the initial state was
built from; and the second read, which comes when no pair was found, finds a config that has
`[tls]`, or none at all. -/
def undisturbed (s : State H) : Event → Bool
  | .main (.call (.fs .ok)) =>
    match s.main with
    | .stat _ => (initial s).all fun p => decide (s.file = p.version)
    | .readAgain _ =>
      match parse H.tomlFromStr s.file.content with
      | .ok config => config.tls.isSome
      | .error _ => true
    | _ => true
  | _ => true

def mainReading : MainPc H → Option (Reading H)
  | .building r _ | .rebuilding _ r _ => some r.toReading
  | _ => none

def Reached (file v : FileVersion) : Prop := file = v ∨ v.mtime < file.mtime

structure Versions (s : State H) : Prop where
  opening : Opening s
  reading : ∀ r, mainReading s.main = some r → Reached s.file r.version
  initial : ∀ p, initial s = some p → Reached s.file p.version

theorem boot_versions (file : FileVersion) (dirs : String → CertificateCache.CacheDir)
    (instant wall : ℕ) : Versions (boot H file dirs instant wall) := by
  refine ⟨boot_opening H file dirs instant wall, ?_, ?_⟩
  · intro r hr
    cases hr
  · intro p hp
    cases hp

theorem boot_notPanicked (file : FileVersion) (dirs : String → CertificateCache.CacheDir)
    (instant wall : ℕ) : NotPanicked (boot H file dirs instant wall) := by
  simp [NotPanicked, boot]

theorem initial_store {s t : State H} {p : Publication H} (hl : t.log = p :: s.log)
    (hne : s.log ≠ []) : initial t = initial s := by
  rw [initial, initial, hl, List.getLast?_cons_of_ne_nil hne]

theorem initial_publish {s t : State H} {p : Publication H} (hl : t.log = p :: s.log)
    (hnil : s.log = []) : initial t = some p := by
  rw [initial, hl, hnil]
  rfl

theorem Versions.frame {s t : State H} (h : Versions s) (ho : Opening t) (hf : t.file = s.file)
    (hl : t.log = s.log)
    (hm : mainReading t.main = mainReading s.main ∨ mainReading t.main = none) : Versions t := by
  refine ⟨ho, ?_, ?_⟩
  · intro r hr
    rw [hf]
    rcases hm with hm | hm
    · exact h.reading r (hm ▸ hr)
    · rw [hm] at hr
      cases hr
  · intro p hp
    rw [hf]
    exact h.initial p (by rwa [StartupWatch.initial, hl] at hp)

theorem Versions.stored {s t : State H} {p : Publication H} (h : Versions s) (ho : Opening t)
    (hf : t.file = s.file) (hl : t.log = p :: s.log) (hne : s.log ≠ []) (hm : t.main = s.main) :
    Versions t := by
  refine ⟨ho, ?_, ?_⟩
  · rw [hf, hm]
    exact h.reading
  · rw [hf, initial_store hl hne]
    exact h.initial

theorem Versions.published {s t : State H} {r : Reading H} {p : Publication H} (h : Versions s)
    (ho : Opening t) (hf : t.file = s.file) (hl : t.log = p :: s.log)
    (hr : mainReading s.main = some r) (hp : p.toReading = r) (hst : s.main.starting = true)
    (hm : mainReading t.main = none) : Versions t := by
  refine ⟨ho, ?_, ?_⟩
  · intro q hq
    rw [hm] at hq
    cases hq
  · intro q hq
    rw [initial_publish hl (h.opening.starting hst)] at hq
    cases hq
    rw [hf, hp]
    exact h.reading r hr

theorem mainReading_provision (boot : Boot) (call : AcmeProvision.Call) (pc : AcmeProvision.Pc) :
    mainReading (afterMainProvision (H := H) boot call pc) = none := by
  rcases afterMainProvision_cases (H := H) boot call pc with h | ⟨e, h⟩ | h <;> rw [h] <;> rfl

theorem versions_step {s t : State H} {e : Event} (hs : Versions s) (hinc : Increasing s e)
    (h : Step s e t) : Versions t := by
  have ho := opening_step hs.opening h
  cases h with
  | writeConfig v =>
    have hlt := hinc v rfl
    have reached : ∀ w, Reached s.file w → Reached v w := by
      rintro w (rfl | hw)
      · exact Or.inr hlt
      · exact Or.inr (hw.trans hlt)
    exact ⟨ho, fun r hr => reached _ (hs.reading r hr), fun p hp => reached _ (hs.initial p hp)⟩
  | main r eff he =>
    generalize hpc : s.main = pc at he
    have read : ∀ (t : State H) (r : Reading H), Opening t → t.file = s.file → t.log = s.log →
        mainReading t.main = some r → r.version = s.file → Versions t := by
      intro t r ho hf hl hm hv
      refine ⟨ho, ?_, ?_⟩
      · intro q hq
        obtain rfl := Option.some.inj (hm.symm.trans hq)
        exact Or.inl (hf.trans hv.symm)
      · intro p hp
        rw [hf]
        exact hs.initial p (by rwa [StartupWatch.initial, hl] at hp)
    cases mainStep_cases he with
    | readOk reply vr hv hat => exact read _ _ ho rfl rfl rfl hv
    | rereadOk boot reply vr hv hat => exact read _ _ ho rfl rfl rfl hv
    | build vr b b' a _ => exact hs.frame ho rfl rfl (Or.inl (by rw [hpc]; rfl))
    | rebuild boot vr b b' a _ => exact hs.frame ho rfl rfl (Or.inl (by rw [hpc]; rfl))
    | complete vr view p hr _ _ _ =>
      exact hs.published ho rfl rfl (by rw [hpc]; rfl) hr (by rw [hpc]; rfl) rfl
    | recomplete boot vr view p hr _ _ =>
      exact hs.published ho rfl rfl (by rw [hpc]; rfl) hr (by rw [hpc]; rfl) rfl
    | watch boot reply mtime _ =>
      refine hs.frame ho rfl rfl (Or.inr ?_)
      simp only [State.mainEffect]
      split <;> rfl
    | provision boot call pc pc' w reply _ =>
      exact hs.frame ho rfl rfl (Or.inr (mainReading_provision boot call pc'))
    | _ => exact hs.frame ho rfl rfl (Or.inr rfl)
  | reload r pc eff hpc he =>
    cases eff with
    | goto pc' => exact hs.frame ho rfl rfl (Or.inl rfl)
    | store mtime p => exact hs.stored (p := p) ho rfl rfl (hs.opening.of_reload hpc) rfl
  | renewal r pc eff hpc he =>
    cases eff with
    | goto pc' => exact hs.frame ho rfl rfl (Or.inl rfl)
    | provision dir w pc' => exact hs.frame ho rfl rfl (Or.inl rfl)
    | store p => exact hs.stored (p := p) ho rfl rfl (hs.opening.of_renewal hpc) rfl
  | acceptError m ha => exact hs.frame ho rfl rfl (Or.inr rfl)
  | shutdown ha => exact hs.frame ho rfl rfl (Or.inr rfl)
  | _ => exact hs.frame ho rfl rfl (Or.inl rfl)

theorem keepsEdits_iff {s : State H} {boot : Boot} (hs : Versions s) (hm : s.main = .stat boot)
    (r : Reply) : KeepsEdits s (.main r) ↔ undisturbed s (.main r) = true := by
  cases r with
  | call a =>
    cases a with
    | fs reply =>
      cases reply with
      | ok =>
        cases hp : initial s with
        | none => simp [KeepsEdits, undisturbed, hm, hp]
        | some p =>
          have hreached := hs.initial p hp
          simp only [KeepsEdits, undisturbed, hm, hp, mainStep, Option.some.injEq,
            MainEffect.watch.injEq, Option.all_some, decide_eq_true_eq]
          constructor
          · intro hle
            rcases hreached with heq | hlt
            · exact heq
            · exact absurd (hle _ _ ⟨rfl, rfl⟩ p rfl) (by omega)
          · rintro heq mtime b ⟨rfl, _⟩ q rfl
            exact le_of_eq (congrArg FileVersion.mtime heq)
      | failed m =>
        simp only [KeepsEdits, undisturbed, hm, mainStep, Option.some.injEq, MainEffect.watch.injEq,
          iff_true]
        rintro mtime b ⟨rfl, _⟩ p _
        exact Nat.zero_le _
      | torn n m => simp [KeepsEdits, undisturbed, hm, mainStep]
    | load f => simp [KeepsEdits, undisturbed, hm, mainStep]
  | proceed => simp [KeepsEdits, undisturbed, hm, mainStep]
  | acme reply => simp [KeepsEdits, undisturbed, hm, mainStep]

theorem keepsEdits_elsewhere {s : State H} (hm : ∀ boot, s.main ≠ .stat boot) (e : Event) :
    KeepsEdits s e := by
  cases e with
  | main r =>
    intro mtime boot he
    generalize hpc : s.main = pc at he
    cases mainStep_cases he with
    | watch b reply m _ => exact absurd hpc (hm boot)
  | _ => trivial

theorem readAgain_panics {s t : State H} {boot : Boot} {r : Reply} (hm : s.main = .readAgain boot)
    (h : next s (.main r) = some t) : NotPanicked t ↔ undisturbed s (.main r) = true := by
  obtain ⟨eff, he, rfl⟩ := Option.map_eq_some_iff.mp h
  rw [hm] at he
  cases r <;> try cases he
  rename_i a
  cases a <;> try cases he
  rename_i reply
  obtain ⟨res, hres, rfl⟩ := Option.map_eq_some_iff.mp he
  simp only [State.readConfig] at hres
  cases reply with
  | torn n m => cases hres
  | failed m =>
    obtain rfl := Option.some.inj hres
    simp [NotPanicked, undisturbed, leaveOr, State.mainEffect]
  | ok =>
    have hfrom := readConfig_fromFile (H := H) s.file s.log.length .ok
    rw [hres] at hfrom
    simp only [Option.map_some, fromFile, Option.some.injEq] at hfrom
    simp only [undisturbed, hm]
    cases res with
    | error e =>
      cases hp : parse H.tomlFromStr s.file.content <;> simp [hp, Except.map] at hfrom
      simp [NotPanicked, leaveOr, State.mainEffect]
    | ok reading =>
      cases hp : parse H.tomlFromStr s.file.content <;> simp [hp, Except.map] at hfrom
      rename_i config
      subst hfrom
      cases ht : reading.config.tls with
      | none => simp [NotPanicked, leaveOr, afterReadAgain, ht, State.mainEffect]
      | some tlsConfig =>
        simp only [Option.isSome_some, iff_true, NotPanicked, leaveOr, afterReadAgain, ht]
        split <;> simp [State.mainEffect]

theorem main_notPanicked {s : State H} {pc : MainPc H} {r : Reply} {eff : MainEffect H}
    (hm : ∀ boot, pc ≠ .readAgain boot) (h : mainStep s pc r = some eff) :
    NotPanicked (s.mainEffect eff) := by
  cases mainStep_cases h with
  | panic boot reply => exact absurd rfl (hm boot)
  | provision boot call pc pc' w reply _ =>
    simp only [NotPanicked, State.mainEffect]
    rcases afterMainProvision_cases (H := H) boot call pc' with h | ⟨e, h⟩ | h <;> simp [h]
  | watch boot reply mtime _ =>
    simp only [NotPanicked, State.mainEffect]
    split <;> simp
  | _ => simp [NotPanicked, State.mainEffect]

/-- Of a start-up that has not panicked: a step is undisturbed exactly when it neither hands
over too late a time nor panics. -/
theorem undisturbed_iff {s t : State H} {e : Event} (hs : Versions s) (hp : NotPanicked s)
    (h : next s e = some t) : NotPanicked t ∧ KeepsEdits s e ↔ undisturbed s e = true := by
  cases e with
  | main r =>
    have hmain : (∀ boot, s.main ≠ .readAgain boot) → NotPanicked t := by
      intro hno
      obtain ⟨eff, he, rfl⟩ := Option.map_eq_some_iff.mp h
      exact main_notPanicked (s := s) hno he
    cases hm : s.main with
    | stat boot => rw [and_iff_right (hmain (by simp [hm])), keepsEdits_iff hs hm r]
    | readAgain boot =>
      rw [and_iff_left (keepsEdits_elsewhere (by simp [hm]) _), readAgain_panics hm h]
    | _ =>
      refine iff_of_true ⟨hmain (by simp [hm]), keepsEdits_elsewhere (by simp [hm]) _⟩ ?_
      simp only [undisturbed, hm]
      split <;> rfl
  | _ =>
    refine iff_of_true ⟨?_, trivial⟩ rfl
    rcases step_main (step_of_next h) (by simp) with hm | ⟨_, result, hm⟩
    · exact fun hpanic => hp (hm ▸ hpanic)
    · exact fun hpanic => nomatch hm.symm.trans hpanic

structure Watching (s : State H) : Prop where
  versions : Versions s
  notPanicked : NotPanicked s
  given : s.reload ≠ none → ∀ p, initial s = some p → s.lastMtime ≤ p.version.mtime

theorem Watching.editsSeen {s : State H} (h : Watching s) : EditsSeen s := by
  intro p hp hr hne
  rcases h.versions.initial p hp with heq | hlt
  · exact absurd heq hne
  · exact (h.given hr p hp).trans_lt hlt

theorem given_step {s t : State H} {e : Event} (hs : Watching s) (hk : KeepsEdits s e)
    (hr : reloadStores s e = false) (h : Step s e t) :
    t.reload ≠ none → ∀ p, initial t = some p → t.lastMtime ≤ p.version.mtime := by
  have frame : ∀ t : State H, (t.reload ≠ none → s.reload ≠ none) → t.lastMtime = s.lastMtime →
      initial t = initial s →
      t.reload ≠ none → ∀ p, initial t = some p → t.lastMtime ≤ p.version.mtime := by
    intro t hreload hlast hinit hne p hp
    rw [hlast]
    exact hs.given (hreload hne) p (hinit ▸ hp)
  cases h with
  | main r eff he =>
    cases eff with
    | watch mtime boot => exact fun _ p hp => hk mtime boot he p hp
    | publish p boot =>
      -- no loop runs before the initial state is published
      have hnone : s.reload = none := by
        generalize hpc : s.main = pc at he
        refine (hs.versions.opening.tasks (hs.versions.opening.starting ?_)).1
        cases mainStep_cases he <;> rw [hpc] <;> rfl
      exact fun hne => absurd hnone hne
    | _ => exact frame _ id rfl rfl
  | reload r pc eff hpc he =>
    cases eff with
    | goto pc' => exact frame _ (fun _ => by simp [hpc]) rfl rfl
    | store mtime p => simp [reloadStores, storing, hpc, he] at hr
  | renewal r pc eff hpc he =>
    cases eff with
    | store p =>
      exact frame _ id rfl (initial_store (p := p) rfl (hs.versions.opening.of_renewal hpc))
    | _ => exact frame _ id rfl rfl
  | _ => exact frame _ id rfl rfl

theorem watching_step {s t : State H} {e : Event} (hs : Watching s)
    (hc : (Increasing s e ∧ undisturbed s e = true) ∧ reloadStores s e = false)
    (h : next s e = some t) : Watching t := by
  obtain ⟨hp, hk⟩ := (undisturbed_iff hs.versions hs.notPanicked h).mpr hc.1.2
  have hstep := step_of_next h
  exact ⟨versions_step hs.versions hc.1.1 hstep, hp, given_step hs hk hc.2 hstep⟩

/-- From the first read on, under increasing modification times: no edit is lost over start-up
and it does not panic, exactly when it is undisturbed. -/
theorem noEditLost_iff (H : Host) (file : FileVersion)
    (dirs : String → CertificateCache.CacheDir) (instant wall : ℕ)
    {tr : List (State H × Event)} {u : State H}
    (h : Run next (boot H file dirs instant wall) tr u) (hinc : Obeys Increasing tr) :
    NoEditLost tr u ↔ Obeys (fun s e => undisturbed s e = true) tr := by
  have hv := boot_versions (H := H) file dirs instant wall
  have hpanic := boot_notPanicked (H := H) file dirs instant wall
  have hiff := h.always_obeys_iff (P := NotPanicked) (D := KeepsEdits)
    (fun _ _ _ ht he hn => versions_step ht he (step_of_next hn))
    (fun _ _ _ ht hp hn => undisturbed_iff ht hp hn) hv hpanic hinc
  constructor
  · intro hlost
    exact hiff.mp ⟨hlost.noPanic, hlost.handed⟩
  · intro hund
    obtain ⟨hnever, hhanded⟩ := hiff.mpr hund
    refine ⟨hhanded, fun hno => ?_, hnever⟩
    have hw : Watching u := h.invariant_of (fun _ _ _ ht hc hn => watching_step ht hc hn)
      ⟨hv, hpanic, fun hreload => absurd rfl hreload⟩ ((hinc.and hund).and hno)
    exact hw.editsSeen

theorem noEditLost_iff_edited : ∃ tr u, Run next sampleBoot tr u ∧
    (u.lastMtime, u.file.mtime) = (1, 2) ∧ NoEditLost tr u := by
  obtain ⟨u, hr, hv⟩ := run_of_view next sampleBoot
    (sampleStart ++ [.writeConfig ⟨2, "127.0.0.1:3001"⟩]) (fun s => (s.lastMtime, s.file.mtime))
    (1, 2) rfl
  exact ⟨_, u, hr, hv, (noEditLost_iff _ _ _ _ _ hr (obeys_of_all rfl)).mpr (obeys_of_all rfl)⟩

/-- Start-up builds from version 1, the file is written, and its new time is handed over. Or the
file loses its `[tls]` while the pair is found missing. -/
theorem startup_loses_edit :
    (¬ ∀ (H : Host) (file : FileVersion) (dirs : String → CertificateCache.CacheDir)
      (instant wall : ℕ) (tr : List (State H × Event)) (u : State H),
      Run next (boot H file dirs instant wall) tr u → Obeys Increasing tr → NoEditLost tr u) ∧
    ¬ ∀ (H : Host) (file : FileVersion) (dirs : String → CertificateCache.CacheDir)
      (instant wall : ℕ) (tr : List (State H × Event)) (u : State H),
      Run next (boot H file dirs instant wall) tr u → Obeys Increasing tr → NotPanicked u := by
  constructor
  · intro hall
    obtain ⟨u, hr, hv⟩ := run_of_view next sampleBoot
      (sampleStart.take 7 ++ [.writeConfig ⟨2, "127.0.0.1:3001"⟩, .main .ok])
      (fun s => (s.lastMtime, s.file.mtime, s.reload.isSome,
        (initial s).map fun p => p.version.mtime)) (2, 2, true, some 1) rfl
    simp only [Prod.mk.injEq, Option.map_eq_some_iff] at hv
    obtain ⟨hlast, hfile, hreload, p, hp, hversion⟩ := hv
    have hlost := hall _ _ _ _ _ _ u hr (obeys_of_all rfl)
    have hseen := hlost.seen (obeys_of_all rfl) p hp (Option.isSome_iff_ne_none.mp hreload) ?_
    · omega
    · intro heq
      rw [heq] at hfile
      omega
  · intro hall
    obtain ⟨u, hr, hv⟩ := run_of_view next
      (boot optionalTlsHost ⟨1, "tls"⟩ (fun _ _ => none) 0 1700000000)
      [.main .ok, .main .noPlugins, .main .ok, .main .proceed, .writeConfig ⟨2, ""⟩, .main .ok]
      (fun s => match s.main with | .panicked => true | _ => false) true rfl
    refine hall _ _ _ _ _ _ u hr (obeys_of_all rfl) ?_
    cases hm : u.main with
    | panicked => rfl
    | _ => simp [hm] at hv

end StartupWatch
