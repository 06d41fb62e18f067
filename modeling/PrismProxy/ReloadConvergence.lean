import PrismProxy.PublicationOrder

/-! # The reload loop alone

With no renewal stepping in between, nothing is stored between a read of the reload loop and
its store, so it is never overtaken and every quiet tick that goes well converges. -/
namespace ReloadConvergence

open TransitionRuns SnapshotRegister ProxyConfig StatePublication ProxyServer PublicationOrder

variable {H : Host}

def NoRenewal (_ : ProxyServer.State H) (e : ProxyServer.Event) : Prop := ∀ r, e ≠ .renewal r

/-- Since the reload loop read its config nothing has been stored, and all that has been was
validated. -/
structure Alone (s : ProxyServer.State H) : Prop where
  settled : Settled s
  lastRead : ∀ m r b, s.reload = some (.building m r b) → r.readAt = s.log.length
  valid : ∀ p ∈ s.log, validate p.config = .ok ()

theorem LoopsStarted.alone {s : ProxyServer.State H} (h : LoopsStarted s) : Alone s := by
  obtain ⟨p, hlog, _, hvalid, _⟩ := h.initial
  refine ⟨h.settled, ?_, ?_⟩
  · intro m r b hb
    rw [h.reload] at hb
    cases hb
  · intro q hq
    rw [hlog] at hq
    rw [List.mem_singleton.mp hq]
    exact hvalid

theorem Alone.frame {s t : ProxyServer.State H} (h : Alone s) (hs : Settled t)
    (hl : t.log = s.log) (hr : t.reload = s.reload) : Alone t := by
  refine ⟨hs, ?_, ?_⟩
  · intro m r b hb
    rw [hl]
    exact h.lastRead m r b (hr ▸ hb)
  · rw [hl]
    exact h.valid

theorem alone_step {s t : ProxyServer.State H} {e : ProxyServer.Event} (ha : Alone s)
    (hn : NoRenewal s e) (h : Step s e t) : Alone t := by
  have hs := settled_step ha.settled h
  cases h with
  | main r eff he =>
    rcases settled_main ha.settled he with ⟨m, rfl⟩ | ⟨boot, redirect, _, rfl⟩
    · exact ha.frame hs rfl rfl
    · exact ha.frame hs rfl rfl
  | renewal r => exact absurd rfl (hn r)
  | reload r pc eff hpc he =>
    cases reloadStep_cases he with
    | readOk mtime reply vr _ hat =>
      refine ⟨hs, ?_, ha.valid⟩
      intro m r b hb
      cases hb
      exact hat
    | build mtime vr b b' a _ =>
      refine ⟨hs, ?_, ha.valid⟩
      intro m r b'' hb
      cases hb
      exact ha.lastRead _ _ _ hpc
    | store mtime vr view p hr _ _ =>
      refine ⟨hs, ?_, ?_⟩
      · intro m r b hb
        cases hb
      · intro q hq
        rcases List.mem_cons.mp hq with rfl | hq
        · rw [hr]
          exact vr.valid
        · exact ha.valid q hq
    | _ =>
      refine ⟨hs, ?_, ha.valid⟩
      intro m r b hb
      cases hb
  | _ => exact ha.frame hs rfl rfl

theorem notOvertaken_of_alone {s : ProxyServer.State H} {e : ProxyServer.Event} (ha : Alone s)
    (hn : NoRenewal s e) : NotOvertaken s e := by
  intro w p hst v hv
  cases w with
  | main =>
    have hl := (storing_label ha.settled hst).2
    simp [register, held] at hl
  | reload =>
    obtain ⟨r, mtime, vr, view, _, hpc, _, hr, _⟩ := storing_reload hst
    have hat : p.readAt = s.log.length := by
      rw [congrArg Reading.readAt hr]
      exact ha.lastRead mtime vr _ hpc
    simp [since, hat, mtimes] at hv
  | renewal =>
    obtain ⟨r, _, _, he, _⟩ := storing_renewal hst
    exact absurd he (hn r)

theorem failed_tick {s t : ProxyServer.State H} {e : ProxyServer.Event}
    (ho : tickOutcome s e = some .failed) (h : Step s e t) :
    t.log = s.log ∧ t.lastMtime = s.lastMtime := by
  cases h with
  | reload r pc eff hpc he =>
    cases eff with
    | goto pc' => exact ⟨rfl, rfl⟩
    | store mtime p => simp [tickOutcome, hpc, he] at ho
  | _ => cases ho

structure Converges (tr : Trace H) (u : ProxyServer.State H) : Prop where
  failedTicks : ∀ p ∈ tr, tickOutcome p.1 p.2 = some .failed → ∀ t, next p.1 p.2 = some t →
    t.log = p.1.log ∧ t.lastMtime = p.1.lastMtime
  oneVersion : ∃ p, u.published = some p ∧ p.version ∈ u.history ∧ validate p.config = .ok ()
  fresh : FreshAfterTick tr u

/-- The reload loop alone, under increasing modification times: failed ticks change nothing,
the published state is the build of one validated version, and it is the current one after a
quiet tick that went well. -/
theorem reload_converges {s u : ProxyServer.State H} {tr : Trace H} (hs : LoopsStarted s)
    (h : Run next s tr u) (hinc : Obeys Increasing tr) (halone : Obeys NoRenewal tr) :
    Converges tr u := by
  have hinv : Always Alone tr u :=
    h.always_of (C := NoRenewal)
      (fun _ _ _ ha hc hstep => alone_step ha hc (step_of_next hstep)) (fun _ ha => ha)
      (LoopsStarted.alone hs) halone
  have hno : Obeys NotOvertaken tr := by
    intro p hp
    exact notOvertaken_of_alone (hinv.1 p hp) (halone p hp)
  have hvers : Settled u ∧ Versions u :=
    h.invariant_of (I := fun s => Settled s ∧ Versions s) (C := Increasing)
      (fun _ _ _ hst hc hn => ⟨settled_step hst.1 (step_of_next hn),
        versions_step hst.1 hc hst.2 (step_of_next hn)⟩) ⟨hs.settled, hs.versions⟩ hinc
  refine ⟨?_, ?_, fresh_of_notOvertaken hs h hinc hno⟩
  · intro p _ ho t hn
    exact failed_tick ho (step_of_next hn)
  · obtain ⟨q, hq, _⟩ := hvers.2.seen
    cases hlog : u.log with
    | nil => rw [hlog] at hq; cases hq
    | cons p rest =>
      have hp : p ∈ u.log := by simp [hlog]
      exact ⟨p, by simp [State.published, hlog], (hvers.2.logged p hp).1,
        hinv.2.valid p hp⟩

instance (s : ProxyServer.State H) : (e : ProxyServer.Event) → Decidable (NoRenewal s e)
  | .renewal r => isFalse fun h => h r rfl
  | .writeConfig _ | .editCache _ _ | .clock _ _ | .ping _ _ | .main _ | .reload _ | .accept
  | .acceptError _ | .shutdown | .dispatch => isTrue nofun

theorem reload_converges_raced : ∃ tr u, Run next sampleServing tr u ∧ mtimes u = [3, 1] ∧
    u.lastMtime = 2 ∧ Converges tr u := by
  let es : List ProxyServer.Event :=
    [.writeConfig ⟨2, "127.0.0.1:3001"⟩, .reload .proceed, .reload .ok,
      .writeConfig ⟨3, "127.0.0.1:3002"⟩, .reload .ok] ++ sampleBuild.map .reload
  obtain ⟨u, hr, hv⟩ := run_of_view next sampleServing es (fun s => (mtimes s, s.lastMtime))
    ([3, 1], 2) rfl
  obtain ⟨hm, hlast⟩ := Prod.mk.inj hv
  have hinc : Obeys Increasing (traceOf next sampleServing es) := obeys_of_all rfl
  have halone : Obeys NoRenewal (traceOf next sampleServing es) := obeys_of_all rfl
  exact ⟨_, u, hr, hm, hlast, reload_converges sampleServing_started hr hinc halone⟩

end ReloadConvergence
