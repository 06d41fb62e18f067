import PrismProxy.AcmeReplacement
import PrismProxy.ProvisionLock

/-! # Provisioning calls that share a cache directory

Any number of calls, in one process or in several, each step of each a file-system call or an
answer of the ACME server. Their lockfile is a tested lock, so it excludes the others exactly
as far as their tests are careful. -/
namespace LockExclusion

open TransitionRuns CertificateCache AcmeProvision ProvisionLock

structure Launch where
  call : Call
  store : ℕ

structure State where
  files : CacheDir
  stores : ℕ → ChallengeMap
  responders : ℕ → Option ChallengeMap
  instant : ℕ
  wall : ℕ
  pc : ℕ → Pc

inductive Event where
  | call (i : ℕ) (r : Reply)
  | clock (instant wall : ℕ)

def State.world (s : State) (l : Launch) (i : ℕ) : World :=
  ⟨s.files, s.stores l.store, s.responders i, s.instant, s.wall⟩

def State.after (s : State) (l : Launch) (i : ℕ) (w : World) (pc : Pc) : State :=
  { s with
    files := w.files
    stores := Function.update s.stores l.store w.challenges
    responders := Function.update s.responders i w.responder
    pc := Function.update s.pc i pc }

def next (launches : ℕ → Launch) (s : State) : Event → Option State
  | .call i r =>
    (step (launches i).call (s.world (launches i) i) (s.pc i) r).map fun (w, pc) =>
      s.after (launches i) i w pc
  | .clock instant wall =>
    if s.instant ≤ instant then some { s with instant := instant, wall := wall } else none

def start (files : CacheDir) (instant wall : ℕ) : State :=
  ⟨files, fun _ => noChallenges, fun _ => none, instant, wall, fun _ => .createDir⟩

def lockView (s : State) : TestedLock.State ℕ := ⟨isLocked s.files, fun i => lockPhase (s.pc i)⟩

def lockLabel (launches : ℕ → Launch) (s : State) : Event → Option (TestedLock.Event ℕ)
  | .call i r =>
    (step (launches i).call (s.world (launches i) i) (s.pc i) r).bind fun (_, pc) =>
      lockEvent i (s.pc i) r pc
  | .clock _ _ => none

theorem next_follows {launches : ℕ → Launch} {s t : State} {e : Event}
    (h : next launches s e = some t) :
    Follows (lockView s) (lockView t) (lockLabel launches s e) := by
  cases e with
  | clock instant wall =>
    obtain ⟨_, ht⟩ := Option.ite_none_right_eq_some.mp h
    cases ht
    rfl
  | call i r =>
    obtain ⟨⟨w, pc⟩, hstep, rfl⟩ := Option.map_eq_some_iff.mp h
    have hview : lockView (s.after (launches i) i w pc) = lockAfter (lockView s) i w pc := by
      simp only [lockView, lockAfter, State.after, TestedLock.State.mk.injEq, true_and]
      funext j
      by_cases hj : j = i
      · subst hj
        simp
      · simp [Function.update_of_ne hj]
    have hlabel : lockLabel launches s (.call i r) = lockEvent i (s.pc i) r pc := by
      simp [lockLabel, hstep]
    rw [hview, hlabel]
    exact lock_follows (s := lockView s) rfl rfl hstep

def locking (launches : ℕ → Launch) :
    Simulation (next launches) (TestedLock.next (ι := ℕ)) where
  ok _ _ := True
  inv _ := True
  view := lockView
  label := lockLabel launches
  keeps _ _ _ _ _ _ := trivial
  idle s e t _ _ h hl := by
    have hf := next_follows h
    rwa [hl] at hf
  move s e t a _ _ h hl := by
    have hf := next_follows h
    rwa [hl] at hf

/-- A call that does not find `.renewing` has really looked, and no other call stands between
its own check and its write of the file, or is still removing its temporary files. -/
def TestsAlone (s : State) : Event → Prop
  | .call i (.fs r) => s.pc i = .checkLock → fileExists s.files .renewing r = some false →
    r = .ok ∧ ∀ j, lockPhase (s.pc j) ≠ .tested ∧ lockPhase (s.pc j) ≠ .leaving
  | _ => True

theorem careful_of_testsAlone {launches : ℕ → Launch} {s : State} {e : Event}
    (h : TestsAlone s e) (a : TestedLock.Event ℕ) (hl : lockLabel launches s e = some a) :
    TestedLock.Careful (lockView s) a := by
  cases e with
  | clock instant wall => cases hl
  | call i r =>
    obtain ⟨⟨w, pc⟩, hstep, hl⟩ := Option.bind_eq_some_iff.mp hl
    cases a with
    | test j blind =>
      obtain ⟨hpc, rfl, fs, rfl, rfl⟩ := lockEvent_test hl
      rw [hpc] at hstep
      obtain ⟨locked, hfound, ho⟩ := Option.map_eq_some_iff.mp hstep
      cases locked with
      | true => cases ho
      | false =>
        obtain ⟨rfl, hnone⟩ := h hpc hfound
        exact ⟨by simp, hnone⟩
    | _ => trivial

theorem lockView_invariant {launches : ℕ → Launch} {files : CacheDir} {instant wall : ℕ}
    {tr : List (State × Event)} {u : State}
    (h : Run (next launches) (start files instant wall) tr u) (hc : Obeys TestsAlone tr) :
    TestedLock.Invariant (lockView u) := by
  have hrun := (locking launches).run h trivial fun _ _ => trivial
  refine TestedLock.exclusive_of_careful (u := lockView u) hrun ?_
  rw [(locking launches).obeys_trace]
  exact hc.imp fun _ _ ht => careful_of_testsAlone ht

/-- The order of call `i` issued the certificate for the key the call had generated. -/
def IssuedBy (tr : List (State × Event)) (i : ℕ) (certPem keyPem : String) : Prop :=
  ∃ p ∈ tr, ∃ deadline, p.1.pc i = .certificate keyPem deadline ∧
    p.2 = .call i (.certificate (.ok (some certPem)))

def Whole (files₀ : CacheDir) (tr : List (State × Event)) (files : CacheDir) : Prop :=
  pairOf files = pairOf files₀ ∨
  ∃ i certPem keyPem, IssuedBy tr i certPem keyPem ∧ pairOf files = (some certPem, some keyPem)

/-- The second rename of a call does not fail. -/
def KeyRenamed (s : State) : Event → Prop
  | .call i (.fs (.failed _)) => ∀ certPem keyPem, s.pc i ≠ .renameKey certPem keyPem
  | _ => True

def Written (tr : List (State × Event)) (i : ℕ) (files : CacheDir) : Phase → Prop
  | .writingCertTmp certPem keyPem => IssuedBy tr i certPem keyPem
  | .writingKeyTmp certPem keyPem =>
    IssuedBy tr i certPem keyPem ∧ files .certTmp = some certPem
  | .renamingCert certPem keyPem =>
    IssuedBy tr i certPem keyPem ∧ files .certTmp = some certPem ∧ files .keyTmp = some keyPem
  | .renamingKey certPem keyPem =>
    IssuedBy tr i certPem keyPem ∧ files .cert = some certPem ∧ files .keyTmp = some keyPem
  | _ => True

structure Tidy (files₀ : CacheDir) (tr : List (State × Event)) (s : State) : Prop where
  written : ∀ i, Written tr i s.files (s.pc i).phase
  whole : (∀ i certPem keyPem, (s.pc i).phase ≠ .renamingKey certPem keyPem) →
    Whole files₀ tr s.files

variable {files₀ : CacheDir} {tr : List (State × Event)}

theorem IssuedBy.mono {p : State × Event} {i : ℕ} {certPem keyPem : String}
    (h : IssuedBy tr i certPem keyPem) : IssuedBy (tr ++ [p]) i certPem keyPem := by
  obtain ⟨q, hq, hd⟩ := h
  exact ⟨q, List.mem_append_left _ hq, hd⟩

theorem Whole.mono {p : State × Event} {files files' : CacheDir} (h : Whole files₀ tr files)
    (hp : pairOf files' = pairOf files) : Whole files₀ (tr ++ [p]) files' := by
  rcases h with hold | ⟨i, c, k, hi, hnew⟩
  · exact Or.inl (hp.trans hold)
  · exact Or.inr ⟨i, c, k, hi.mono, hp.trans hnew⟩

theorem Written.mono {p : State × Event} {i : ℕ} {files files' : CacheDir} {phase : Phase}
    (h : Written tr i files phase) (hc : files' .cert = files .cert)
    (ht : files' .certTmp = files .certTmp) (hk : files' .keyTmp = files .keyTmp) :
    Written (tr ++ [p]) i files' phase := by
  cases phase with
  | writingCertTmp c k => exact IssuedBy.mono h
  | writingKeyTmp c k => exact ⟨h.1.mono, ht.trans h.2⟩
  | renamingCert c k => exact ⟨h.1.mono, ht.trans h.2.1, hk.trans h.2.2⟩
  | renamingKey c k => exact ⟨h.1.mono, hc.trans h.2.1, hk.trans h.2.2⟩
  | _ => trivial

theorem outside_files {call : Call} {w w' : World} {pc pc' : Pc} {r : Reply}
    (hp : (lockPhase pc).busy = false) (h : step call w pc r = some (w', pc')) :
    w'.files = w.files := by
  cases step_cases h with
  | failed _ _ message orders =>
    rw [(orders_holding orders).1] at hp
    cases hp
  | _ => first | rfl | cases hp

/-- A step of a call that writes the pair: it goes on as far as its files are written, and
where it is past its second rename the pair is as before or its own. -/
theorem own_step {launches : ℕ → Launch} {s : State} {i : ℕ} {r : Reply} {w : World} {pc : Pc}
    (hw : Written tr i s.files (s.pc i).phase) (hk : KeyRenamed s (.call i r))
    (h : step (launches i).call (s.world (launches i) i) (s.pc i) r = some (w, pc)) :
    Written (tr ++ [(s, .call i r)]) i w.files pc.phase ∧
    ((∀ c k, pc.phase ≠ .renamingKey c k) →
      ((∀ c k, (s.pc i).phase ≠ .renamingKey c k) ∧ pairOf w.files = pairOf s.files) ∨
      ∃ c k, IssuedBy (tr ++ [(s, .call i r)]) i c k ∧ pairOf w.files = (some c, some k)) := by
  cases hp : (s.pc i).phase with
  | ordering =>
    rcases ordering_step hp h with hearly | ⟨c, k, d, hpc, rfl, rfl, rfl⟩
    · refine ⟨?_, fun _ => Or.inl ⟨by simp, pairOf_of_agree hearly.files⟩⟩
      rcases hearly.phase with hord | ⟨m, herr⟩
      · rw [show pc.phase = .ordering from hord]
        trivial
      · rw [show pc.phase = _ from herr]
        trivial
    · exact ⟨⟨(s, _), by simp, d, hpc, rfl⟩, fun _ => Or.inl ⟨by simp, rfl⟩⟩
  | writingCertTmp c k =>
    rw [hp] at hw
    obtain ⟨hsame, hout⟩ := writingCertTmp_step hp h
    refine ⟨?_, fun _ => Or.inl ⟨by simp, hsame⟩⟩
    rcases hout with ⟨hnext, htmp⟩ | ⟨m, herr⟩
    · rw [hnext]
      exact ⟨IssuedBy.mono hw, htmp⟩
    · rw [herr]
      trivial
  | writingKeyTmp c k =>
    rw [hp] at hw
    obtain ⟨hsame, hkeep, hout⟩ := writingKeyTmp_step hp h
    refine ⟨?_, fun _ => Or.inl ⟨by simp, hsame⟩⟩
    rcases hout with ⟨hnext, htmp⟩ | ⟨m, herr⟩
    · rw [hnext]
      exact ⟨hw.1.mono, hkeep.trans hw.2, htmp⟩
    · rw [herr]
      trivial
  | renamingCert c k =>
    rw [hp] at hw
    rcases renamingCert_step hp h with ⟨hnext, hnew, _, htmp⟩ | ⟨hf, m, herr⟩
    · rw [hnext]
      exact ⟨⟨hw.1.mono, hnew.trans hw.2.1, htmp.trans hw.2.2⟩, fun hno => absurd rfl (hno c k)⟩
    · rw [herr]
      exact ⟨trivial, fun _ => Or.inl ⟨by simp, by rw [hf]; rfl⟩⟩
  | renamingKey c k =>
    rw [hp] at hw
    rcases renamingKey_step hp h with ⟨_, hnext, hnew, hold⟩ | ⟨⟨m, rfl⟩, _, _⟩
    · rw [hnext]
      refine ⟨trivial, fun _ => Or.inr ⟨c, k, hw.1.mono, ?_⟩⟩
      rw [pairOf, hnew, hold]
      exact Prod.ext hw.2.1 hw.2.2
    · -- the one failure that tears the pair
      have hpc : s.pc i = .renameKey c k := by
        generalize s.pc i = q at hp
        cases q <;> cases hp
        rfl
      exact absurd hpc (hk c k)
  | writingIssuedAt c k =>
    obtain ⟨hsame, fs, _, hout⟩ := writingIssuedAt_step hp h
    refine ⟨?_, fun _ => Or.inl ⟨by simp, hsame⟩⟩
    rcases hout with ⟨hnext, _⟩ | ⟨_, _, m, herr⟩
    · rw [hnext]
      trivial
    · rw [herr]
      trivial
  | returning result =>
    obtain ⟨hsame, hnext⟩ := returning_step hp h
    rw [hnext]
    exact ⟨trivial, fun _ => Or.inl ⟨by simp, hsame⟩⟩

theorem written_of_outside {j : ℕ} {files : CacheDir} {pc : Pc}
    (h : lockPhase pc ≠ .holding) : Written tr j files pc.phase := by
  cases pc <;> trivial

theorem tidy_step {launches : ℕ → Launch} {s t : State} {e : Event}
    (hl : TestedLock.Invariant (lockView s)) (hs : Tidy files₀ tr s) (hk : KeyRenamed s e)
    (h : next launches s e = some t) : Tidy files₀ (tr ++ [(s, e)]) t := by
  cases e with
  | clock instant wall =>
    obtain ⟨_, ht⟩ := Option.ite_none_right_eq_some.mp h
    cases ht
    exact ⟨fun i => (hs.written i).mono rfl rfl rfl, fun hno => (hs.whole hno).mono rfl⟩
  | call i r =>
    obtain ⟨⟨w, pc⟩, hstep, rfl⟩ := Option.map_eq_some_iff.mp h
    obtain ⟨hown, hpair⟩ := own_step (hs.written i) hk hstep
    have hother : ∀ j, j ≠ i → (s.after (launches i) i w pc).pc j = s.pc j :=
      fun j hj => Function.update_of_ne hj ..
    have hself : (s.after (launches i) i w pc).pc i = pc := Function.update_self ..
    refine ⟨?_, ?_⟩
    · intro j
      by_cases hj : j = i
      · subst hj
        rw [hself]
        exact hown
      · rw [hother j hj]
        by_cases hin : lockPhase (s.pc j) = .holding
        · -- while another call is inside, this one changes nothing
          have hfiles : w.files = s.files := by
            refine outside_files (w := s.world (launches i) i) ?_ hstep
            rw [← Bool.not_eq_true]
            intro hbusy
            exact hj (hl.exclusive j i (by simp [lockView, hin, TestedLock.Phase.busy]) hbusy)
          exact (hs.written j).mono (congrFun hfiles _) (congrFun hfiles _) (congrFun hfiles _)
        · exact written_of_outside hin
    · intro hno
      rcases hpair (fun c k => by rw [← hself]; exact hno i c k) with ⟨hpc, hsame⟩ | hnew
      · refine (hs.whole ?_).mono hsame
        intro j c k
        by_cases hj : j = i
        · subst hj
          exact hpc c k
        · rw [← hother j hj]
          exact hno j c k
      · obtain ⟨c, k, hi, hp⟩ := hnew
        exact Or.inr ⟨i, c, k, hi, hp⟩

/-- Past the check and the write of `.renewing`, and before its removal. -/
def Inside (pc : Pc) : Prop := lockPhase pc = .holding

def removing : Pc → Bool
  | .unlock _ | .removeCertTmp _ | .removeKeyTmp _ => true
  | _ => false

/-- One call at a time is inside, nothing is removed while another is, and between the renames
of a call and those of the next the pair is whole. -/
structure Excluded (files₀ : CacheDir) (tr : List (State × Event)) (u : State) : Prop where
  exclusive : ∀ i j, Inside (u.pc i) → Inside (u.pc j) → i = j
  removals : ∀ i j, removing (u.pc i) = true → Inside (u.pc j) → i = j
  whole : (∀ i certPem keyPem, (u.pc i).phase ≠ .renamingKey certPem keyPem) →
    Whole files₀ tr u.files

def Orderly (s : State) (e : Event) : Prop := TestsAlone s e ∧ KeyRenamed s e

theorem busy_of_inside {pc : Pc} (h : Inside pc) : (lockPhase pc).busy = true := by
  rw [show lockPhase pc = .holding from h]
  rfl

theorem busy_of_removing {pc : Pc} (h : removing pc = true) : (lockPhase pc).busy = true := by
  cases pc <;> first | rfl | cases h

/-- In every run of any calls whose checks are made alone and whose second rename does not fail
the lockfile excludes. -/
theorem provisioning_excluded (launches : ℕ → Launch) (files₀ : CacheDir) (instant wall : ℕ)
    {tr : List (State × Event)} {u : State}
    (h : Run (next launches) (start files₀ instant wall) tr u) (hc : Obeys Orderly tr) :
    Excluded files₀ tr u := by
  have hl : TestedLock.Invariant (lockView u) := lockView_invariant h (hc.imp fun _ _ ho => ho.1)
  have ht : Tidy files₀ tr u := by
    refine h.traced ⟨fun _ => trivial, fun _ => Or.inl rfl⟩ ?_ hc
    intro tr t e v hrun hpre htidy he hn
    exact tidy_step (lockView_invariant hrun (hpre.imp fun _ _ ho => ho.1)) htidy he.2 hn
  exact ⟨fun i j hi hj => hl.exclusive i j (busy_of_inside hi) (busy_of_inside hj),
    fun i j hi hj => hl.exclusive i j (busy_of_removing hi) (busy_of_inside hj), ht.whole⟩

def sampleLaunches : ℕ → Launch := fun i => ⟨AcmeReplacement.sampleCall, i⟩

def sampleStart : State := start AcmeReplacement.sampleWorld.files 0 1700000000

theorem provisioning_excluded_refused : ∃ tr u, Run (next sampleLaunches) sampleStart tr u ∧
    (lockPhase (u.pc 0), lockPhase (u.pc 1)) = (.holding, .finished) ∧
    Excluded sampleStart.files tr u := by
  obtain ⟨u, hr, hv⟩ := run_of_view (next sampleLaunches) sampleStart
    [.call 0 (.unit (.ok ())), .call 0 (.fs .ok), .call 0 (.fs .ok), .call 1 (.unit (.ok ())),
      .call 1 (.fs .ok)]
    (fun s => (lockPhase (s.pc 0), lockPhase (s.pc 1))) (.holding, .finished) rfl
  refine ⟨_, u, hr, hv, provisioning_excluded _ _ _ _ hr ?_⟩
  have alone : ∀ j,
      lockPhase (Function.update (fun _ : ℕ => Pc.createDir) 0 .checkLock j) = .idle := by
    intro j
    by_cases hj : j = 0
    · rw [hj, Function.update_self]
      rfl
    · rw [Function.update_of_ne hj]
      rfl
  refine obeys_cons.mpr ⟨⟨trivial, trivial⟩, obeys_cons.mpr ⟨⟨?_, trivial⟩,
    obeys_cons.mpr ⟨⟨nofun, trivial⟩, obeys_cons.mpr ⟨⟨trivial, trivial⟩,
      obeys_cons.mpr ⟨⟨fun _ => nofun, trivial⟩, obeys_nil _⟩⟩⟩⟩⟩
  intro _ _
  refine ⟨rfl, fun j => ?_⟩
  have hj := alone j
  constructor
  · intro h
    cases hj.symm.trans h
  · intro h
    cases hj.symm.trans h

/-- Both calls check before either has written the file. -/
theorem both_inside : ¬ ∀ (launches : ℕ → Launch) (files₀ : CacheDir) (instant wall : ℕ)
    (tr : List (State × Event)) (u : State),
    Run (next launches) (start files₀ instant wall) tr u →
      ∀ i j, Inside (u.pc i) → Inside (u.pc j) → i = j := by
  intro hall
  obtain ⟨u, hr, hv⟩ := run_of_view (next sampleLaunches) sampleStart
    [.call 0 (.unit (.ok ())), .call 1 (.unit (.ok ())), .call 0 (.fs .ok), .call 1 (.fs .ok),
      .call 0 (.fs .ok), .call 1 (.fs .ok)]
    (fun s => (lockPhase (s.pc 0), lockPhase (s.pc 1))) (.holding, .holding) rfl
  obtain ⟨h0, h1⟩ := Prod.mk.inj hv
  exact absurd (hall _ _ _ _ _ u hr 0 1 h0 h1) (by decide)

end LockExclusion
