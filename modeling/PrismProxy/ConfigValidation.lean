import PrismProxy.TransitionRuns
import PrismProxy.ProxyServerSteps

/-! # Which published configs were validated

Start-up and the reload loop carry the proof that the config they build from passed
`validate`; the renewal loop reads the file on its own and does not ask. -/
namespace ConfigValidation

open TransitionRuns ProxyConfig ProxyState StatePublication ProxyServer

variable {H : Host}

/-- Every state ever published was built from a config that passed `validate`, and its routes
are well formed. -/
def AllValidated (s : State H) : Prop :=
  ∀ p ∈ s.log, validate p.config = .ok () ∧ WellFormedRoutes (p.state.routes.map RouteState.route)

/-- A config that a renewal tick publishes passes `validate`. -/
def RenewsValidated (s : State H) (e : Event) : Prop :=
  ∀ p, storing s e = some (.renewal, p) → validate p.config = .ok ()

theorem validated_wellFormed {p : Publication H} (h : validate p.config = .ok ()) :
    WellFormedRoutes (p.state.routes.map RouteState.route) := by
  rw [p.routes.1]
  exact validate_wellFormed h

theorem allValidated_step {s t : State H} {e : Event} (h : next s e = some t) :
    AllValidated t ↔ AllValidated s ∧ RenewsValidated s e := by
  have hlog := step_log (step_of_next h)
  cases hst : storing s e with
  | none =>
    have hsame : t.log = s.log := by simpa [hst] using hlog
    have hno : RenewsValidated s e := by
      intro p hp
      simp [hst] at hp
    simp only [AllValidated, hsame]
    exact ⟨fun ha => ⟨ha, hno⟩, fun ha => ha.1⟩
  | some wp =>
    obtain ⟨w, p⟩ := wp
    have hcons : t.log = p :: s.log := by simpa [hst] using hlog
    simp only [AllValidated, hcons, List.forall_mem_cons]
    constructor
    · rintro ⟨hp, hall⟩
      refine ⟨hall, ?_⟩
      intro q hq
      obtain ⟨_, rfl⟩ := Prod.mk.inj (Option.some.inj (hst.symm.trans hq))
      exact hp.1
    · rintro ⟨hall, hren⟩
      have hp : validate p.config = .ok () := by
        by_cases hw : w = .renewal
        · exact hren p (hw ▸ hst)
        · exact storing_valid hst hw
      exact ⟨⟨hp, validated_wellFormed hp⟩, hall⟩

/-- From start-up on, every published config was validated exactly when every config a
renewal tick publishes passes `validate`. -/
theorem allValidated_iff (file : FileVersion) (dirs : String → CertificateCache.CacheDir)
    (instant wall : ℕ) {tr : List (State H × Event)} {u : State H}
    (h : Run next (boot H file dirs instant wall) tr u) :
    AllValidated u ↔ Obeys RenewsValidated tr := by
  have start : AllValidated (boot H file dirs instant wall) := by
    intro p hp
    cases hp
  exact h.iff_obeys (I := fun _ => True) (fun _ _ _ _ _ => trivial)
    (fun _ _ _ _ hn => allValidated_step hn) trivial start

theorem allValidated_iff_started :
    ∃ tr u, Run next sampleBoot tr u ∧ u.log.length = 1 ∧
      (AllValidated u ↔ Obeys RenewsValidated tr) := by
  obtain ⟨u, hr, hl⟩ := run_of_view next sampleBoot sampleStart (fun s => s.log.length) 1 rfl
  exact ⟨_, u, hr, hl, allValidated_iff _ _ _ _ hr⟩

/-- A file with an upstream that is no socket address is on disk when a renewal tick reads it:
the renewed state routes to it. -/
theorem renewal_publishes_invalid : ¬ ∀ (H : Host) (file : FileVersion)
    (dirs : String → CertificateCache.CacheDir) (instant wall : ℕ) (tr : List (State H × Event))
    (u : State H), Run next (boot H file dirs instant wall) tr u → AllValidated u := by
  intro hall
  obtain ⟨u, hr, hv⟩ := run_of_view next sampleBoot
    (sampleStart ++ [.writeConfig ⟨2, "localhost:3000"⟩] ++ sampleRenewal ++
      sampleBuild.map .renewal)
    (fun s => s.log.map fun p => (validate p.config).isOk) [false, true] rfl
  obtain ⟨p, hp, hbad⟩ : ∃ p ∈ u.log, (validate p.config).isOk = false := by
    have hmem : false ∈ u.log.map fun p => (validate p.config).isOk := by simp [hv]
    simpa using hmem
  have hgood := (hall _ _ _ _ _ _ u hr p hp).1
  rw [hgood] at hbad
  cases hbad

end ConfigValidation
