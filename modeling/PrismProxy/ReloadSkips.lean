import PrismProxy.PublicationOrder

/-! # Which ticks of the reload loop are skipped

A tick ignores the file unless its modification time is above the one recorded with the last
load. That the ignored file is the one loaded is more than the comparison can tell. -/
namespace ReloadSkips

open TransitionRuns StatePublication ProxyServer PublicationOrder

variable {H : Host}

/-- The version a step of the reload loop stores a state of, and records the time for. -/
def loads (s : ProxyServer.State H) (e : ProxyServer.Event) : Option FileVersion :=
  match storing s e with
  | some (.reload, p) => some p.version
  | _ => none

def lastLoaded (first : FileVersion) (tr : Trace H) : FileVersion :=
  (tr.filterMap fun p => loads p.1 p.2).getLast?.getD first

/-- A tick is skipped only over the version that was loaded last. -/
def SkipsSound (first : FileVersion) (tr : Trace H) : Prop :=
  ∀ before t e after, tr = before ++ (t, e) :: after → tickOutcome t e = some .skipped →
    t.file = lastLoaded first before

/-- Whenever a tick began, nothing has been written since, and a tick has gone well since, the
version on disk is the one loaded last. -/
def LoadedAfterTick (first : FileVersion) (tr : Trace H) (u : ProxyServer.State H) : Prop :=
  ∀ before t after, tr = before ++ (t, .reload .proceed) :: after → t.reload = some .tick →
    Obeys NoWrite after → (∃ p ∈ after, TickLoads p.1 p.2) → u.file = lastLoaded first tr

structure EveryVersionLoaded (first : FileVersion) (tr : Trace H) (u : ProxyServer.State H) :
    Prop where
  skips : SkipsSound first tr
  loaded : LoadedAfterTick first tr u

def noted : Option (ReloadPc H) → Option ℕ
  | some (.read mtime) | some (.building mtime _ _) => some mtime
  | _ => none

/-- What is written is newer than anything the reload loop has looked at. -/
def NewerThanNoted (s : ProxyServer.State H) (e : ProxyServer.Event) : Prop :=
  ∀ v, e = .writeConfig v → s.lastMtime < v.mtime ∧ ∀ m, noted s.reload = some m → m < v.mtime

/-- Different versions have different modification times. -/
def DistinctTimes (s : ProxyServer.State H) (e : ProxyServer.Event) : Prop :=
  ∀ v, e = .writeConfig v → ∀ w ∈ s.history, w.mtime = v.mtime → w = v

theorem lastLoaded_snoc (first : FileVersion) (tr : Trace H) (s : ProxyServer.State H)
    (e : ProxyServer.Event) :
    lastLoaded first (tr ++ [(s, e)]) = (loads s e).getD (lastLoaded first tr) := by
  unfold lastLoaded
  rw [List.filterMap_append]
  cases hl : loads s e with
  | none => simp [hl]
  | some v => simp [hl]

theorem loads_none {s : ProxyServer.State H} {e : ProxyServer.Event} (h : ∀ r, e ≠ .reload r) :
    loads s e = none := by
  unfold loads
  split
  · rename_i p hst
    obtain ⟨r, _, _, _, he, _⟩ := storing_reload hst
    exact absurd he (h r)
  · rfl

def stored : ReloadEffect H → Option FileVersion
  | .store _ p => some p.version
  | .goto _ => none

theorem loads_reload {s : ProxyServer.State H} {pc : ReloadPc H} {r : Reply}
    {eff : ReloadEffect H} (hpc : s.reload = some pc) (he : reloadStep s pc r = some eff) :
    loads s (.reload r) = stored eff := by
  cases eff <;> simp [loads, storing, hpc, he, stored]

/-- The file is the version loaded last, or newer than the time recorded with it; and so for
the load in progress. -/
structure Noted (loaded : FileVersion) (s : ProxyServer.State H) : Prop where
  settled : Settled s
  last : s.file = loaded ∨ s.lastMtime < s.file.mtime
  reading : ∀ m, s.reload = some (.read m) → m ≤ s.file.mtime
  building : ∀ m r b, s.reload = some (.building m r b) → s.file = r.version ∨ m < s.file.mtime

theorem LoopsStarted.noted {s : ProxyServer.State H} {p : Publication H} (h : LoopsStarted s)
    (hp : s.log = [p]) : Noted p.version s := by
  obtain ⟨q, hlog, hlast, _, _, hv⟩ := h.initial
  obtain rfl := List.singleton_inj.mp (hlog.symm.trans hp)
  refine ⟨h.settled, ?_, ?_, ?_⟩
  · rcases hv with heq | hlt
    · exact Or.inl heq.symm
    · exact Or.inr (hlast ▸ hlt)
  · intro m hm
    rw [h.reload] at hm
    cases hm
  · intro m r b hm
    rw [h.reload] at hm
    cases hm

theorem Noted.frame {loaded : FileVersion} {s t : ProxyServer.State H} (h : Noted loaded s)
    (hs : Settled t) (hf : t.file = s.file) (hl : t.lastMtime = s.lastMtime)
    (hr : t.reload = s.reload) : Noted loaded t where
  settled := hs
  last := by rw [hf, hl]; exact h.last
  reading := by rw [hf, hr]; exact h.reading
  building := by rw [hf, hr]; exact h.building

theorem noted_reload {loaded : FileVersion} {s : ProxyServer.State H} {pc : ReloadPc H}
    {r : Reply} {eff : ReloadEffect H} (hs : Noted loaded s) (ht : Settled (s.reloadEffect eff))
    (hpc : s.reload = some pc) (he : reloadStep s pc r = some eff) :
    Noted ((loads s (.reload r)).getD loaded) (s.reloadEffect eff) := by
  rw [loads_reload hpc he]
  cases reloadStep_cases he with
  | store mtime vr view p hr _ _ =>
    refine ⟨ht, ?_, by simp [ProxyServer.State.reloadEffect],
      by simp [ProxyServer.State.reloadEffect]⟩
    rcases hs.building mtime vr _ hpc with heq | hlt
    · exact Or.inl (heq.trans (congrArg Reading.version hr).symm)
    · exact Or.inr hlt
  | newer _ =>
    refine ⟨ht, hs.last, ?_, by simp [ProxyServer.State.reloadEffect]⟩
    intro m hm
    cases hm
    exact Nat.le_refl _
  | readOk mtime reply vr hver _ =>
    refine ⟨ht, hs.last, by simp [ProxyServer.State.reloadEffect], ?_⟩
    intro m r b hb
    cases hb
    exact Or.inl hver.symm
  | build mtime vr b b' a _ =>
    refine ⟨ht, hs.last, by simp [ProxyServer.State.reloadEffect], ?_⟩
    intro m r b hb
    cases hb
    exact hs.building _ _ _ hpc
  | _ =>
    exact ⟨ht, hs.last, by simp [ProxyServer.State.reloadEffect],
      by simp [ProxyServer.State.reloadEffect]⟩

theorem noted_step {loaded : FileVersion} {s t : ProxyServer.State H} {e : ProxyServer.Event}
    (hs : Noted loaded s) (hc : NewerThanNoted s e) (h : Step s e t) :
    Noted ((loads s e).getD loaded) t := by
  have ht := settled_step hs.settled h
  cases h with
  | reload r pc eff hpc he => exact noted_reload hs ht hpc he
  | writeConfig v =>
    obtain ⟨hlast, hnoted⟩ := hc v rfl
    rw [loads_none (by simp)]
    refine ⟨ht, Or.inr hlast, ?_, ?_⟩
    · intro m hm
      have hlt := hnoted m (by rw [hm]; rfl)
      exact hlt.le
    · intro m r b hb
      exact Or.inr (hnoted m (by rw [hb]; rfl))
  | main r eff he =>
    rw [loads_none (by simp)]
    rcases settled_main hs.settled he with ⟨m, rfl⟩ | ⟨boot, redirect, _, rfl⟩
    · exact hs.frame ht rfl rfl rfl
    · exact hs.frame ht rfl rfl rfl
  | renewal r pc eff hpc he =>
    rw [loads_none (by simp)]
    cases eff <;> exact hs.frame ht rfl rfl rfl
  | _ =>
    rw [loads_none (by simp)]
    exact hs.frame ht rfl rfl rfl

theorem skipped_old {s t : ProxyServer.State H} {e : ProxyServer.Event}
    (ho : tickOutcome s e = some .skipped) (h : Step s e t) : s.file.mtime ≤ s.lastMtime := by
  cases h with
  | reload r pc eff hpc he =>
    cases reloadStep_cases he with
    | skip hold => exact hold
    | _ => simp [tickOutcome, hpc, he] at ho
  | _ => cases ho

theorem Noted.skip {loaded : FileVersion} {s t : ProxyServer.State H} {e : ProxyServer.Event}
    (hs : Noted loaded s) (ho : tickOutcome s e = some .skipped) (h : Step s e t) :
    s.file = loaded := by
  have hold := skipped_old ho h
  rcases hs.last with heq | hlt
  · exact heq
  · omega

theorem run_noted {s u : ProxyServer.State H} {tr : Trace H} {first : FileVersion}
    (hs : Noted first s) (h : Run ProxyServer.next s tr u) (hc : Obeys NewerThanNoted tr) :
    Noted (lastLoaded first tr) u := by
  refine h.traced (I := fun tr s => Noted (lastLoaded first tr) s) hs ?_ hc
  intro tr t e v _ _ ht hce hn
  rw [lastLoaded_snoc]
  exact noted_step ht hce (step_of_next hn)

theorem loads_of_stored {s t : ProxyServer.State H} {e : ProxyServer.Event}
    (ho : tickOutcome s e = some .stored) (h : Step s e t) : ∃ v, loads s e = some v := by
  cases h with
  | reload r pc eff hpc he =>
    cases reloadStep_cases he with
    | store mtime vr view p _ _ _ => exact ⟨_, loads_reload hpc he⟩
    | _ => simp [tickOutcome, hpc, he] at ho
  | _ => cases ho

theorem loads_current {s : ProxyServer.State H} {e : ProxyServer.Event} {v : FileVersion}
    (hr : ReadsCurrent s) (hl : loads s e = some v) : v = s.file := by
  unfold loads at hl
  split at hl
  · rename_i p hst
    obtain ⟨_, _, vr, _, _, hpc, _, hreading, _⟩ := storing_reload hst
    cases hl
    rw [congrArg Reading.version hreading]
    exact hr _ _ _ hpc
  · cases hl

theorem loaded_quiet {loaded : FileVersion} {s t : ProxyServer.State H} {e : ProxyServer.Event}
    (hr : ReadsCurrent s) (hw : NoWrite s e) (h : Step s e t)
    (hl : s.file = loaded ∨ TickLoads s e) (hs : Noted loaded s) :
    t.file = (loads s e).getD loaded := by
  rw [file_of_noWrite hw h]
  cases hload : loads s e with
  | some v => exact (loads_current hr hload).symm
  | none =>
    rcases hl with heq | hskip | hstored
    · exact heq
    · exact hs.skip hskip h
    · obtain ⟨v, hv⟩ := loads_of_stored hstored h
      rw [hload] at hv
      cases hv

theorem loaded_after_tick {s u : ProxyServer.State H} {tr : Trace H} {first : FileVersion}
    (hs : Noted first s) (h : Run ProxyServer.next s tr u) (hc : Obeys NewerThanNoted tr) :
    LoadedAfterTick first tr u := by
  intro before t after htr htick hquiet hloads
  subst htr
  obtain ⟨hbefore, y, hfire, hafter⟩ := h.cut
  obtain ⟨hcb, hcr⟩ := obeys_append.mp hc
  obtain ⟨hcf, hca⟩ := obeys_cons.mp hcr
  have hstart : Run ProxyServer.next s (before ++ [(t, .reload .proceed)]) y :=
    hbefore.snoc hfire
  have hreads : ReadsCurrent y := readsCurrent_fire htick (step_of_next hfire)
  rw [List.append_cons]
  clear hfire htick
  suffices hind : ReadsCurrent u ∧ ((∃ p ∈ after, TickLoads p.1 p.2) →
      u.file = lastLoaded first (before ++ [(t, .reload .proceed)] ++ after)) from hind.2 hloads
  clear hloads h hc hcr
  induction hafter with
  | nil => exact ⟨hreads, by simp⟩
  | @snoc tr v e z hrun hn ih =>
    obtain ⟨hq, hqe⟩ := obeys_append.mp hquiet
    obtain ⟨hca, _⟩ := obeys_append.mp hca
    obtain ⟨hrv, hlv⟩ := ih hq hca
    have hpre : Obeys NewerThanNoted (before ++ [(t, .reload .proceed)] ++ tr) := by
      simp [hcb, hcf, hca]
    have hv := run_noted hs (hstart.trans hrun) hpre
    have hstep := step_of_next hn
    have hnw : NoWrite v e := by simpa using hqe
    refine ⟨readsCurrent_step hv.settled hnw hrv hstep, ?_⟩
    rintro ⟨p, hp, hl⟩
    rw [← List.append_assoc, lastLoaded_snoc]
    refine loaded_quiet hrv hnw hstep ?_ hv
    rcases List.mem_append.mp hp with hp | hp
    · exact Or.inl (hlv ⟨p, hp, hl⟩)
    · rw [List.mem_singleton.mp hp] at hl
      exact Or.inr hl

/-- From the start of the reload loop on: if every version is newer than what the loop has
looked at when it is written, every one the loop gets to see is loaded. -/
theorem every_version_loaded {s u : ProxyServer.State H} {tr : Trace H} {p : Publication H}
    (hs : LoopsStarted s) (hp : s.log = [p]) (h : Run ProxyServer.next s tr u)
    (hc : Obeys NewerThanNoted tr) : EveryVersionLoaded p.version tr u := by
  have hn := LoopsStarted.noted hs hp
  refine ⟨?_, loaded_after_tick hn h hc⟩
  intro before t e after htr ho
  subst htr
  obtain ⟨hbefore, y, hstep, _⟩ := h.cut
  have hnoted := run_noted hn hbefore (obeys_append.mp hc).1
  exact hnoted.skip ho (step_of_next hstep)

instance (s : ProxyServer.State H) : (e : ProxyServer.Event) → Decidable (NewerThanNoted s e)
  | .writeConfig v => decidable_of_iff
      (s.lastMtime < v.mtime ∧ ∀ m ∈ (noted s.reload).toList, m < v.mtime)
      ⟨fun h w hw => by
        cases hw
        exact ⟨h.1, fun m hm => h.2 m (by simp [hm])⟩,
      fun h => ⟨(h v rfl).1, fun m hm => (h v rfl).2 m (by simpa using hm)⟩⟩
  | .editCache _ _ | .clock _ _ | .ping _ _ | .main _ | .reload _ | .renewal _ | .accept
  | .acceptError _ | .shutdown | .dispatch => isTrue fun _ hv => by cases hv

instance (s : ProxyServer.State H) : (e : ProxyServer.Event) → Decidable (DistinctTimes s e)
  | .writeConfig v => decidable_of_iff (∀ w ∈ s.history, w.mtime = v.mtime → w = v)
      ⟨fun h w hw => by cases hw; exact h, fun h => h v rfl⟩
  | .editCache _ _ | .clock _ _ | .ping _ _ | .main _ | .reload _ | .renewal _ | .accept
  | .acceptError _ | .shutdown | .dispatch => isTrue fun _ hv => by cases hv

theorem every_version_loaded_replaced : ∃ p tr u, Run ProxyServer.next sampleServing tr u ∧
    u.lastMtime = 3 ∧ EveryVersionLoaded p tr u := by
  obtain ⟨p, hlog, _⟩ := sampleServing_started.initial
  let es : List ProxyServer.Event :=
    [.writeConfig ⟨5, "127.0.0.1:3001"⟩, .writeConfig ⟨3, "127.0.0.1:3002"⟩] ++ sampleReload
  obtain ⟨u, hr, hlast⟩ := run_of_view ProxyServer.next sampleServing es
    (fun s => s.lastMtime) 3 rfl
  have hc : Obeys NewerThanNoted (traceOf ProxyServer.next sampleServing es) := obeys_of_all rfl
  exact ⟨_, _, u, hr, hlast, every_version_loaded sampleServing_started hlog hr hc⟩

/-- The second version is loaded, the first is moved back, and the next tick ignores it. -/
theorem rollback_ignored : ¬ ∀ (H : Host) (s u : ProxyServer.State H) (tr : Trace H)
    (p : Publication H), LoopsStarted s → s.log = [p] → Run ProxyServer.next s tr u →
      Obeys DistinctTimes tr → EveryVersionLoaded p.version tr u := by
  intro hall
  obtain ⟨p, hlog, _⟩ := sampleServing_started.initial
  let es : List ProxyServer.Event := .writeConfig ⟨2, "127.0.0.1:3001"⟩ :: sampleReload ++
    [.writeConfig ⟨1, "127.0.0.1:3000"⟩, .reload .proceed]
  obtain ⟨v, hr, hv⟩ := run_of_view ProxyServer.next sampleServing es
    (fun s =>
      (s.file.mtime, tickOutcome s (.reload .ok), (ProxyServer.next s (.reload .ok)).isSome))
    (1, some .skipped, true) rfl
  simp only [Prod.mk.injEq] at hv
  obtain ⟨hfile, hskip, hstep⟩ := hv
  obtain ⟨u, hu⟩ := Option.isSome_iff_exists.mp hstep
  have hdistinct : Obeys DistinctTimes
      (traceOf ProxyServer.next sampleServing es ++ [(v, .reload .ok)]) := by
    refine obeys_append.mpr ⟨obeys_of_all rfl, ?_⟩
    simp [DistinctTimes, Reply.ok]
  have hsound := (hall _ _ u _ p sampleServing_started hlog (hr.snoc hu) hdistinct).skips
    _ v _ [] rfl hskip
  have hloaded : (lastLoaded p.version (traceOf ProxyServer.next sampleServing es)).mtime = 2 := rfl
  rw [← hsound, hfile] at hloaded
  cases hloaded

end ReloadSkips
