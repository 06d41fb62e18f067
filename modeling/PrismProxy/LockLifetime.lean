import PrismProxy.ProvisionLock
import PrismProxy.ProxyServerSteps

/-! # The lockfile over the runs of a server

Servers run one after another on the same files. A run ends by shutdown, by an error or by a
crash, and its tasks end with it wherever they stand; the cache directory stays. -/
namespace LockLifetime

open TransitionRuns CertificateCache StatePublication ProxyServer ProvisionLock
open AcmeProvision (Pc)

variable {H : Host}

inductive Event where
  | server (e : ProxyServer.Event)
  | restart (instant wall : ℕ)

def next (s : State H) : Event → Option (State H)
  | .server e => ProxyServer.next s e
  | .restart instant wall => some (boot H s.file s.dirs instant wall)

def mainCall : MainPc H → Option (String × Pc)
  | .provisioning _ call pc => some (call.tlsConfig.cacheDir, pc)
  | _ => none

def renewalCall : Option (RenewalPc H) → Option (String × Pc)
  | some (.provisioning r _ pc) => some (r.tlsConfig.cacheDir, pc)
  | _ => none

def CallOn (s : State H) (dir : String) (pc : Pc) : Prop :=
  mainCall s.main = some (dir, pc) ∨ renewalCall s.renewal = some (dir, pc)

/-- `.renewing` is there only while a call is live, and no call is refused for it. -/
structure LockOwned (dir : String) (s : State H) : Prop where
  owned : isLocked (s.dirs dir) = true → ∃ pc, CallOn s dir pc
  notRefused : CallOn s dir .checkLock → isLocked (s.dirs dir) = false

/-- Nobody but the calls makes a `.renewing`. -/
def noForeignLock (dir : String) (s : State H) : Event → Bool
  | .server (.editCache d files) => d != dir || !isLocked files || isLocked (s.dirs dir)
  | _ => true

def holdsLock (dir : String) : Option (String × Pc) → Bool
  | some (d, pc) => d == dir && lockPhase pc == .holding
  | none => false

def unlocks (dir : String) : Option (String × Pc) → Bool
  | some (d, .unlock _) => d == dir
  | _ => false

/-- While `.renewing` is there, a run of the server does not end between a call's write of it
and its removal, and the removal does not fail. -/
def releases (dir : String) (s : State H) (e : Event) : Bool :=
  !isLocked (s.dirs dir) ||
    match e with
    | .restart _ _ => !(holdsLock dir (mainCall s.main) || holdsLock dir (renewalCall s.renewal))
    | .server (.main (.acme (.fs (.failed _)))) => !unlocks dir (mainCall s.main)
    | .server (.renewal (.acme (.fs (.failed _)))) => !unlocks dir (renewalCall s.renewal)
    | _ => true

structure Invariant (dir : String) (s : State H) : Prop where
  opening : Opening s
  spawning : Spawning s
  held : isLocked (s.dirs dir) = true → ∃ pc, CallOn s dir pc ∧ lockPhase pc = .holding

theorem locked_step {call : AcmeProvision.Call} {w w' : AcmeProvision.World} {pc pc' : Pc}
    {r : AcmeProvision.Reply} (hs : isLocked w.files = true → lockPhase pc = .holding)
    (hr : isLocked w.files = true → ∀ e, r = .fs (.failed e) → ∀ result, pc ≠ .unlock result)
    (h : AcmeProvision.step call w pc r = some (w', pc')) :
    isLocked w'.files = true → lockPhase pc' = .holding := by
  have hf := lock_follows (s := ⟨isLocked w.files, fun _ => lockPhase pc⟩) (i := ()) rfl rfl h
  intro hl
  cases ha : lockEvent () pc r pc' with
  | none =>
    rw [ha] at hf
    have hlocked : isLocked w'.files = isLocked w.files := congrArg TestedLock.State.locked hf
    have hphase : lockPhase pc' = lockPhase pc := by
      have hu := congrFun (congrArg TestedLock.State.phase hf) ()
      simpa [lockAfter] using hu
    rw [hphase]
    exact hs (hlocked ▸ hl)
  | some a =>
    rw [ha] at hf
    have hremoved : isLocked w.files = true → TestedLock.Removed a := by
      intro hlocked
      cases a with
      | release i removed cleanup =>
        obtain ⟨⟨result, rfl⟩, rfl⟩ := lockEvent_release ha
        cases r <;> try cases h
        rename_i reply
        cases reply with
        | ok => rfl
        | failed e => exact absurd rfl (hr hlocked e rfl result)
        | torn n e => cases h
      | _ => trivial
    have hnext := TestedLock.next_owned hs hremoved hf hl
    simpa [lockAfter] using hnext

theorem Invariant.alone {dir d : String} {s : State H} {pc : Pc} (h : Invariant dir s)
    (hm : mainCall s.main = some (d, pc)) : s.renewal = none := by
  refine h.spawning.renewal ?_
  generalize s.main = m at hm
  cases m <;> first | rfl | cases hm

theorem Invariant.callOn_unique {dir d d' : String} {s : State H} {pc pc' : Pc}
    (h : Invariant dir s) (hpc : CallOn s d pc) (hpc' : CallOn s d' pc') : d = d' ∧ pc = pc' := by
  rcases hpc with hm | hr <;> rcases hpc' with hm' | hr'
  · exact Prod.mk.inj (Option.some.inj (hm.symm.trans hm'))
  · rw [h.alone hm] at hr'
    cases hr'
  · rw [h.alone hm'] at hr
    cases hr
  · exact Prod.mk.inj (Option.some.inj (hr.symm.trans hr'))

theorem Invariant.lockOwned {dir : String} {s : State H} (h : Invariant dir s) :
    LockOwned dir s where
  owned hl := by
    obtain ⟨pc, hpc, _⟩ := h.held hl
    exact ⟨pc, hpc⟩
  notRefused hcheck := by
    rw [← Bool.not_eq_true]
    intro hl
    obtain ⟨pc, hpc, hhold⟩ := h.held hl
    obtain ⟨_, rfl⟩ := h.callOn_unique hpc hcheck
    cases hhold

theorem boot_invariant {dir : String} {dirs : String → CacheDir} (H : Host) (file : FileVersion)
    (instant wall : ℕ) (hfree : isLocked (dirs dir) = false) :
    Invariant dir (boot H file dirs instant wall) where
  opening := boot_opening H file dirs instant wall
  spawning := boot_spawning H file dirs instant wall
  held hl := by
    rw [show isLocked ((boot H file dirs instant wall).dirs dir) = false from hfree] at hl
    cases hl

theorem mainCall_after {boot : Boot} {call : AcmeProvision.Call} {pc : Pc}
    (h : lockPhase pc = .holding) :
    mainCall (afterMainProvision (H := H) boot call pc) = some (call.tlsConfig.cacheDir, pc) := by
  cases pc <;> first | rfl | cases h

theorem renewalCall_after {r : RenewalReading H} {call : AcmeProvision.Call} {pc : Pc}
    (h : lockPhase pc = .holding) :
    renewalCall (some (afterRenewalProvision r call pc)) = some (r.tlsConfig.cacheDir, pc) := by
  cases pc <;> first | rfl | cases h

theorem Invariant.frame {dir : String} {s t : State H} (h : Invariant dir s)
    (hl : isLocked (t.dirs dir) = true → isLocked (s.dirs dir) = true)
    (hc : ∀ pc, lockPhase pc = .holding → CallOn s dir pc → CallOn t dir pc) :
    isLocked (t.dirs dir) = true → ∃ pc, CallOn t dir pc ∧ lockPhase pc = .holding := by
  intro hlocked
  obtain ⟨pc, hpc, hhold⟩ := h.held (hl hlocked)
  exact ⟨pc, hc pc hhold hpc, hhold⟩

theorem Invariant.provisioned {dir d : String} {s : State H} {call : AcmeProvision.Call}
    {w : AcmeProvision.World} {pc pc' : Pc} {r : AcmeProvision.Reply} (h : Invariant dir s)
    (hon : CallOn s d pc)
    (hr : isLocked (s.dirs dir) = true → ∀ e, r = .fs (.failed e) → d = dir →
      ∀ result, pc ≠ .unlock result)
    (hstep : AcmeProvision.step call (s.world d) pc r = some (w, pc'))
    (hl : isLocked ((s.provisioned d w).dirs dir) = true) :
    lockPhase pc' = .holding ∧ d = dir := by
  by_cases hd : d = dir
  · subst hd
    refine ⟨?_, rfl⟩
    refine locked_step (w := s.world d) ?_ (fun hlocked e he => hr hlocked e he rfl) hstep ?_
    · intro hlocked
      obtain ⟨q, hq, hhold⟩ := h.held hlocked
      obtain ⟨_, rfl⟩ := h.callOn_unique hq hon
      exact hhold
    · simpa [State.provisioned] using hl
  · exfalso
    have hlocked : isLocked (s.dirs dir) = true := by
      simpa [State.provisioned, Function.update_of_ne (Ne.symm hd)] using hl
    obtain ⟨q, hq, _⟩ := h.held hlocked
    exact hd (h.callOn_unique hon hq).1

theorem renewalCall_main {s : State H} {r : Reply} {eff : MainEffect H} {c : String × Pc}
    (hs : Spawning s) (h : mainStep s s.main r = some eff) (hc : renewalCall s.renewal = some c) :
    renewalCall (s.mainEffect eff).renewal = some c := by
  generalize hm : s.main = pc at h
  cases mainStep_cases h with
  | renew boot reply redirect =>
    rw [hs.renewal (by rw [hm]; rfl)] at hc
    cases hc
  | _ => exact hc

theorem held_main {dir : String} {s : State H} {r : Reply} {eff : MainEffect H}
    (hs : Invariant dir s) (hr : releases dir s (.server (.main r)) = true)
    (h : mainStep s s.main r = some eff) :
    isLocked ((s.mainEffect eff).dirs dir) = true →
      ∃ pc, CallOn (s.mainEffect eff) dir pc ∧ lockPhase pc = .holding := by
  have hkeep := fun c => renewalCall_main (c := c) hs.spawning h
  cases hm : s.main with
  | provisioning boot call pc =>
    rw [hm] at h
    cases r <;> try cases h
    case call a => cases a <;> cases h
    case acme reply =>
      obtain ⟨⟨w, pc'⟩, hstep, rfl⟩ := Option.map_eq_some_iff.mp h
      have hon : CallOn s call.tlsConfig.cacheDir pc := Or.inl (by rw [hm]; rfl)
      intro hl
      obtain ⟨hhold, hd⟩ := hs.provisioned hon (by
        rintro hlocked e rfl rfl result rfl
        simp [releases, hm, mainCall, unlocks, hlocked] at hr) hstep hl
      exact ⟨pc', Or.inl (hd ▸ mainCall_after hhold), hhold⟩
  | _ =>
    -- a call that is live is the renewal's
    refine hs.frame ?_ ?_
    · rw [hm] at h
      cases mainStep_cases h <;> exact id
    · rintro pc _ (hmain | hrenew)
      · rw [hm] at hmain
        cases hmain
      · exact Or.inr (hkeep _ hrenew)

theorem held_renewal {dir : String} {s : State H} {r : Reply} {pc : RenewalPc H}
    {eff : RenewalEffect H} (hs : Invariant dir s)
    (hr : releases dir s (.server (.renewal r)) = true) (hpc : s.renewal = some pc)
    (h : renewalStep s pc r = some eff) :
    isLocked ((s.renewalEffect eff).dirs dir) = true →
      ∃ pc, CallOn (s.renewalEffect eff) dir pc ∧ lockPhase pc = .holding := by
  cases pc with
  | provisioning reading call pc =>
    cases r <;> try cases h
    case call a => cases a <;> cases h
    case acme reply =>
      obtain ⟨⟨w, pc'⟩, hstep, rfl⟩ := Option.map_eq_some_iff.mp h
      have hon : CallOn s reading.tlsConfig.cacheDir pc := Or.inr (by rw [hpc]; rfl)
      intro hl
      obtain ⟨hhold, hd⟩ := hs.provisioned hon (by
        rintro hlocked e rfl rfl result rfl
        simp [releases, hpc, renewalCall, unlocks, hlocked] at hr) hstep hl
      exact ⟨pc', Or.inr (hd ▸ renewalCall_after hhold), hhold⟩
  | _ =>
    refine hs.frame ?_ ?_
    · cases renewalStep_cases h <;> exact id
    · rintro pc _ (hmain | hrenew)
      · refine Or.inl ?_
        cases renewalStep_cases h <;> exact hmain
      · rw [hpc] at hrenew
        cases hrenew

theorem accepting_mainCall {s : State H} (h : s.accepting = true) : mainCall s.main = none := by
  simp only [State.accepting] at h
  generalize s.main = m at h
  cases m <;> first | rfl | cases h

theorem held_server {dir : String} {s t : State H} {e : ProxyServer.Event} (hs : Invariant dir s)
    (hf : noForeignLock dir s (.server e) = true) (hr : releases dir s (.server e) = true)
    (h : Step s e t) :
    isLocked (t.dirs dir) = true → ∃ pc, CallOn t dir pc ∧ lockPhase pc = .holding := by
  cases h with
  | main r eff he => exact held_main hs hr he
  | renewal r pc eff hpc he => exact held_renewal hs hr hpc he
  | reload r pc eff hpc he =>
    refine hs.frame ?_ ?_ <;> cases eff <;> first | exact id | exact fun _ _ hon => hon
  | editCache d files =>
    refine hs.frame ?_ fun _ _ hon => hon
    by_cases hd : d = dir
    · subst hd
      simpa [noForeignLock, Bool.or_eq_true, or_iff_not_imp_left] using hf
    · simp [Function.update_of_ne (Ne.symm hd)]
  | acceptError m ha =>
    refine hs.frame id ?_
    rintro pc _ (hmain | hrenew)
    · rw [accepting_mainCall ha] at hmain
      cases hmain
    · exact Or.inr hrenew
  | shutdown ha =>
    refine hs.frame id ?_
    rintro pc _ (hmain | hrenew)
    · rw [accepting_mainCall ha] at hmain
      cases hmain
    · exact Or.inr hrenew
  | _ => exact hs.frame id fun _ _ hon => hon

theorem invariant_step {dir : String} {s t : State H} {e : Event} (hs : Invariant dir s)
    (hc : noForeignLock dir s e = true ∧ releases dir s e = true) (h : next s e = some t) :
    Invariant dir t := by
  cases e with
  | server e =>
    have hstep := step_of_next h
    exact ⟨opening_step hs.opening hstep, spawning_step hs.spawning hstep,
      held_server hs hc.1 hc.2 hstep⟩
  | restart instant wall =>
    cases h
    refine boot_invariant H s.file instant wall ?_
    rw [← Bool.not_eq_true]
    intro hl
    obtain ⟨pc, hpc, hhold⟩ := hs.held hl
    have hfree := hc.2
    rcases hpc with hon | hon <;> simp [releases, holdsLock, hon, hhold, hl] at hfree

/-- Over all runs of a server on a directory without a lock. -/
theorem lock_owned (H : Host) (file : FileVersion) (dirs : String → CacheDir)
    (instant wall : ℕ) (dir : String) (hfree : isLocked (dirs dir) = false)
    {tr : List (State H × Event)} {u : State H}
    (h : Run next (boot H file dirs instant wall) tr u)
    (hf : Obeys (fun s e => noForeignLock dir s e = true) tr)
    (hr : Obeys (fun s e => releases dir s e = true) tr) : Always (LockOwned dir) tr u :=
  h.always_of (fun _ _ _ hi hc hn => invariant_step hi hc hn) (fun _ hi => hi.lockOwned)
    (boot_invariant H file instant wall hfree) (hf.and hr)

def sampleRuns : List Event :=
  (sampleStart ++ sampleRenewal ++ [ProxyServer.Event.shutdown]).map .server ++
    [.restart 0 1700000100]

theorem lock_owned_restart : ∃ tr u, Run next sampleBoot tr u ∧
    (renewalCall u.renewal).isNone = true ∧ Always (LockOwned "/cache") tr u := by
  obtain ⟨u, hr, hv⟩ := run_of_view next sampleBoot sampleRuns
    (fun s => (renewalCall s.renewal).isNone) true rfl
  exact ⟨_, u, hr, hv, lock_owned sampleHost _ _ _ _ "/cache" rfl hr
    (obeys_of_all rfl) (obeys_of_all rfl)⟩

/-- A shutdown while the renewal waits for the ACME server. -/
theorem lock_orphaned : ¬ ∀ (H : Host) (file : FileVersion) (dirs : String → CacheDir)
    (instant wall : ℕ) (dir : String), isLocked (dirs dir) = false →
    ∀ (tr : List (State H × Event)) (u : State H), Run next (boot H file dirs instant wall) tr u →
      Obeys (fun s e => noForeignLock dir s e = true) tr → Always (LockOwned dir) tr u := by
  intro hall
  obtain ⟨u, hr, hv⟩ := run_of_view next sampleBoot
    ((sampleStart ++ sampleRenewal.take 7 ++ [ProxyServer.Event.shutdown]).map .server ++
      [.restart 0 1700000100])
    (fun s => (isLocked (s.dirs "/cache"), mainCall s.main, renewalCall s.renewal))
    (true, none, none) rfl
  obtain ⟨hl, hm, hn⟩ : isLocked (u.dirs "/cache") = true ∧ mainCall u.main = none ∧
      renewalCall u.renewal = none := by simpa using hv
  obtain ⟨pc, hon⟩ := (hall sampleHost _ _ _ _ "/cache" rfl _ u hr (obeys_of_all rfl)).2.owned hl
  rcases hon with hon | hon
  · rw [hm] at hon
    cases hon
  · rw [hn] at hon
    cases hon

end LockLifetime
