import PrismProxy.TransitionRuns
import PrismProxy.ProxyServerSteps

/-! # A config with `[tls]` is served over TLS

`build_state` gives back a state without TLS when a certificate file is missing and leaves it
to its caller to provision. Start-up does so; the two loops publish what they get. -/
namespace TlsDowngrade

open TransitionRuns ProxyConfig ProxyState StatePublication ProxyServer

variable {H : Host}

/-- While a config with `[tls]` is published its state has TLS, and no connection accepted in
such a state was given to `serve_plain`. -/
structure NoDowngrade (s : State H) : Prop where
  published : ∀ p, s.published = some p → p.config.tls.isSome → p.state.tls.isSome
  handed : ∀ c ∈ s.handed, c.publication.config.tls.isSome → c.tls = true

/-- A state stored for a config with `[tls]` was built while both files were there. -/
def SeesPair (s : State H) (e : Event) : Prop :=
  ∀ w p, storing s e = some (w, p) → p.config.tls.isSome →
    p.view.certExists = true ∧ p.view.keyExists = true

theorem step_handed {s t : State H} {e : Event} (h : Step s e t) :
    t.handed = s.handed ∨
    (storing s e = none ∧ ∃ p, s.published = some p ∧
      t.handed = ⟨p, p.state.tls.isSome⟩ :: s.handed) := by
  cases h with
  | dispatch n p head => exact Or.inr ⟨rfl, p, head, rfl⟩
  | main r eff he => left; cases eff <;> rfl
  | reload r pc eff hpc he => left; cases eff <;> rfl
  | renewal r pc eff hpc he => left; cases eff <;> rfl
  | _ => exact Or.inl rfl

theorem noDowngrade_step {s t : State H} {e : Event} (hs : NoDowngrade s)
    (h : next s e = some t) : NoDowngrade t ↔ SeesPair s e := by
  have hstep := step_of_next h
  have hlog := step_log hstep
  have hhanded := step_handed hstep
  cases hst : storing s e with
  | none =>
    have hsame : t.published = s.published := by simp [State.published, hlog, hst]
    have hsees : SeesPair s e := by
      intro w p hp
      simp [hst] at hp
    refine iff_of_true ⟨?_, ?_⟩ hsees
    · intro p hp
      exact hs.published p (hsame ▸ hp)
    · intro c hc
      rcases hhanded with hold | ⟨_, p, hp, hnew⟩
      · exact hs.handed c (hold ▸ hc)
      · rw [hnew] at hc
        rcases List.mem_cons.mp hc with rfl | hc
        · intro ht
          exact hs.published p hp ht
        · exact hs.handed c hc
  | some wp =>
    obtain ⟨w, p⟩ := wp
    have hpub : t.published = some p := by simp [State.published, hlog, hst]
    have hold : t.handed = s.handed := by
      rcases hhanded with hold | ⟨hno, _⟩
      · exact hold
      · simp [hst] at hno
    have hpair : ∀ ht : p.config.tls.isSome,
        p.state.tls.isSome ↔ p.view.certExists = true ∧ p.view.keyExists = true := by
      intro ht
      rw [p.tls_isSome_iff ht, Bool.and_eq_true]
    constructor
    · intro hn w' q hq ht
      obtain ⟨_, rfl⟩ := Prod.mk.inj (Option.some.inj (hst.symm.trans hq))
      exact (hpair ht).mp (hn.published p hpub ht)
    · intro hc
      refine ⟨?_, ?_⟩
      · intro q hq ht
        obtain rfl := Option.some.inj (hpub.symm.trans hq)
        exact (hpair ht).mpr (hc w p hst ht)
      · intro c hm
        exact hs.handed c (hold ▸ hm)

/-- From start-up on, in every state a run visits no configured TLS is dropped, exactly when
every state stored for a config with `[tls]` was built while both files were there. -/
theorem noDowngrade_iff (file : FileVersion) (dirs : String → CertificateCache.CacheDir)
    (instant wall : ℕ) {tr : List (State H × Event)} {u : State H}
    (h : Run next (boot H file dirs instant wall) tr u) :
    Always NoDowngrade tr u ↔ Obeys SeesPair tr := by
  have start : NoDowngrade (boot H file dirs instant wall) := by
    constructor
    · intro p hp
      cases hp
    · intro c hc
      cases hc
  exact h.always_iff (I := fun _ => True) (fun _ _ _ _ _ => trivial)
    (fun _ _ _ _ hp hn => noDowngrade_step hp hn) trivial start

theorem noDowngrade_iff_started :
    ∃ tr u, Run next sampleBoot tr u ∧ u.log.length = 1 ∧
      (Always NoDowngrade tr u ↔ Obeys SeesPair tr) := by
  obtain ⟨u, hr, hl⟩ := run_of_view next sampleBoot sampleStart (fun s => s.log.length) 1 rfl
  exact ⟨_, u, hr, hl, noDowngrade_iff _ _ _ _ hr⟩

/-- The cache is empty when a reload builds: the next connection is served in plain text. -/
theorem reload_drops_tls : ¬ ∀ (H : Host) (file : FileVersion)
    (dirs : String → CertificateCache.CacheDir) (instant wall : ℕ) (tr : List (State H × Event))
    (u : State H), Run next (boot H file dirs instant wall) tr u → NoDowngrade u := by
  intro hall
  obtain ⟨u, hr, hv⟩ := run_of_view next sampleBoot
    (sampleStart ++ [.editCache "/cache" fun _ => none, .writeConfig ⟨2, "127.0.0.1:3001"⟩] ++
      [.reload .proceed, .reload .ok, .reload .ok, .reload .noPlugins, .reload .ok,
        .reload .proceed, .accept, .dispatch])
    (fun s => s.handed.map fun c => (c.publication.config.tls.isSome, c.tls)) [(true, false)] rfl
  obtain ⟨c, hc, hplain⟩ :
      ∃ c ∈ u.handed, (c.publication.config.tls.isSome, c.tls) = (true, false) := by
    have hmem : (true, false) ∈ u.handed.map fun c => (c.publication.config.tls.isSome, c.tls) := by
      simp [hv]
    exact List.mem_map.mp hmem
  obtain ⟨htls, hfalse⟩ := Prod.mk.inj hplain
  have htrue := (hall _ _ _ _ _ _ u hr).handed c hc htls
  rw [htrue] at hfalse
  cases hfalse

end TlsDowngrade
