import PrismProxy.TransitionRuns
import PrismProxy.AcmeProvisionSteps

/-! # Atomicity of certificate replacement

A run of one call, from its first step to any point: the process may die there, so every state
of every run is a crash state. The design promises that the pair is replaced as a whole and
that an error leaves it alone; two renames one after the other keep that promise except at
the points named here. -/
namespace AcmeReplacement

open TransitionRuns ProxyConfig CertificateCache AcmeProvision

structure Process where
  world : World
  pc : Pc

inductive Event where
  | reply (r : Reply)
  | clock (instant wall : ℕ)

def next (call : Call) (s : Process) : Event → Option Process
  | .reply r => (step call s.world s.pc r).map fun (world, pc) => ⟨world, pc⟩
  | .clock instant wall =>
    if s.world.instant ≤ instant then
      some { s with world := { s.world with instant := instant, wall := wall } }
    else none

def start (w : World) : Process := ⟨w, .createDir⟩

def Process.pair (s : Process) : Option String × Option String := pairOf s.world.files

abbrev Trace := List (Process × Event)

def IssuedIn (tr : Trace) (certPem keyPem : String) : Prop :=
  ∃ p ∈ tr, ∃ deadline, p.1.pc = .certificate keyPem deadline ∧
    p.2 = .reply (.certificate (.ok (some certPem)))

/-- What is to hold of a state `u` reached by a call that started in `w`. -/
structure Atomic (w : World) (tr : Trace) (u : Process) : Prop where
  matching : u.pair = pairOf w.files ∨ u.pair = (none, none) ∨
    ∃ certPem keyPem, IssuedIn tr certPem keyPem ∧ u.pair = (some certPem, some keyPem)
  untouched : ∀ e, u.pc = .done (.error e) → u.pair = pairOf w.files

def KeyRenameFails (s : Process) (e : Event) : Prop :=
  (∃ certPem keyPem, s.pc = .renameKey certPem keyPem) ∧ ∃ m, e = .reply (.fs (.failed m))

/-- Only in the store variant is a failed write of `issued_at` an error. -/
def SidecarFails (call : Call) (s : Process) (e : Event) : Prop :=
  call.variant = .provisionWithStore ∧
  (∃ certPem keyPem, s.pc = .writeIssuedAt certPem keyPem) ∧
  ∃ fs, e = .reply (.fs fs) ∧ fs ≠ .ok

/-- The process does not stop between the renames, the second rename does not fail, and the
call does not return after a failed write of the sidecar. -/
structure HoldsWhen (call : Call) (tr : Trace) (u : Process) : Prop where
  notBetween : ∀ certPem keyPem, u.pc ≠ .renameKey certPem keyPem
  keyRenamed : Obeys (fun s e => ¬ KeyRenameFails s e) tr
  recorded : (∃ result, u.pc = .done result) → Obeys (fun s e => ¬ SidecarFails call s e) tr

/-- The order issued something new: neither file of the pair was there before. -/
def FreshPair (w : World) (tr : Trace) : Prop :=
  ∀ certPem keyPem, IssuedIn tr certPem keyPem →
    w.files .cert ≠ some certPem ∧ w.files .key ≠ some keyPem

/-- Neither of the two failures has happened. -/
def Clean (call : Call) (tr : Trace) : Prop :=
  Obeys (fun s e => ¬ KeyRenameFails s e) tr ∧ Obeys (fun s e => ¬ SidecarFails call s e) tr

inductive Leaves (call : Call) (w : World) (tr : Trace) (s : Process) : Prop where
  | untouched (clean : Clean call tr) (pair : s.pair = pairOf w.files)
  | torn (failed : ¬ Obeys (fun s e => ¬ KeyRenameFails s e) tr) (certPem keyPem : String)
      (issued : IssuedIn tr certPem keyPem) (pair : s.pair = (some certPem, w.files .key))
  | replaced (renamed : Obeys (fun s e => ¬ KeyRenameFails s e) tr)
      (failed : ¬ Obeys (fun s e => ¬ SidecarFails call s e) tr) (certPem keyPem : String)
      (issued : IssuedIn tr certPem keyPem) (pair : s.pair = (some certPem, some keyPem))

def Stage (call : Call) (w : World) (tr : Trace) (s : Process) : Prop :=
  match s.pc.phase with
  | .ordering => Clean call tr ∧ s.pair = pairOf w.files
  | .writingCertTmp certPem keyPem =>
    Clean call tr ∧ s.pair = pairOf w.files ∧ IssuedIn tr certPem keyPem
  | .writingKeyTmp certPem keyPem =>
    Clean call tr ∧ s.pair = pairOf w.files ∧ IssuedIn tr certPem keyPem ∧
    s.world.files .certTmp = some certPem
  | .renamingCert certPem keyPem =>
    Clean call tr ∧ s.pair = pairOf w.files ∧ IssuedIn tr certPem keyPem ∧
    s.world.files .certTmp = some certPem ∧ s.world.files .keyTmp = some keyPem
  | .renamingKey certPem keyPem =>
    Clean call tr ∧ s.pair = (some certPem, w.files .key) ∧ IssuedIn tr certPem keyPem ∧
    s.world.files .keyTmp = some keyPem
  | .writingIssuedAt certPem keyPem | .returning (.ok (certPem, keyPem)) =>
    Clean call tr ∧ s.pair = (some certPem, some keyPem) ∧ IssuedIn tr certPem keyPem
  | .returning (.error _) => Leaves call w tr s

theorem IssuedIn.mono {tr : Trace} {p : Process × Event} {certPem keyPem : String}
    (h : IssuedIn tr certPem keyPem) : IssuedIn (tr ++ [p]) certPem keyPem := by
  obtain ⟨q, hq, hd⟩ := h
  exact ⟨q, List.mem_append_left _ hq, hd⟩

theorem Clean.snoc {call : Call} {tr : Trace} {s : Process} {e : Event} (h : Clean call tr)
    (hk : ¬ KeyRenameFails s e) (hs : ¬ SidecarFails call s e) :
    Clean call (tr ++ [(s, e)]) := by
  constructor
  · simpa using ⟨h.1, hk⟩
  · simpa using ⟨h.2, hs⟩

theorem not_keyRenameFails_of_phase {s : Process} {e : Event}
    (h : ∀ certPem keyPem, s.pc.phase ≠ .renamingKey certPem keyPem) : ¬ KeyRenameFails s e := by
  rintro ⟨⟨certPem, keyPem, hpc⟩, _⟩
  apply h certPem keyPem
  rw [hpc]; rfl

theorem not_sidecarFails_of_phase {call : Call} {s : Process} {e : Event}
    (h : ∀ certPem keyPem, s.pc.phase ≠ .writingIssuedAt certPem keyPem) :
    ¬ SidecarFails call s e := by
  rintro ⟨_, ⟨certPem, keyPem, hpc⟩, _⟩
  apply h certPem keyPem
  rw [hpc]; rfl

theorem Leaves.snoc {call : Call} {w : World} {tr : Trace} {s s' : Process} {e : Event}
    (h : Leaves call w tr s) (hk : ¬ KeyRenameFails s e) (hs : ¬ SidecarFails call s e)
    (hp : s'.pair = s.pair) : Leaves call w (tr ++ [(s, e)]) s' := by
  cases h with
  | untouched clean pair => exact .untouched (clean.snoc hk hs) (hp.trans pair)
  | torn failed certPem keyPem issued pair =>
    refine .torn ?_ certPem keyPem issued.mono (hp.trans pair)
    intro hall
    exact failed (obeys_append.mp hall).1
  | replaced renamed failed certPem keyPem issued pair =>
    refine .replaced (by simpa using ⟨renamed, hk⟩) ?_ certPem keyPem issued.mono (hp.trans pair)
    intro hall
    exact failed (obeys_append.mp hall).1

theorem Stage.frame {call : Call} {w : World} {tr : Trace} {s s' : Process} {e : Event}
    (h : Stage call w tr s) (hk : ¬ KeyRenameFails s e) (hs : ¬ SidecarFails call s e)
    (hpc : s'.pc = s.pc) (hf : s'.world.files = s.world.files) :
    Stage call w (tr ++ [(s, e)]) s' := by
  have hpair : s'.pair = s.pair := by simp only [Process.pair, hf]
  unfold Stage at h ⊢
  rw [hpc, hpair, hf]
  cases hp : s.pc.phase with
  | ordering => simp only [hp] at h; exact ⟨h.1.snoc hk hs, h.2⟩
  | writingCertTmp c k => simp only [hp] at h; exact ⟨h.1.snoc hk hs, h.2.1, h.2.2.mono⟩
  | writingKeyTmp c k =>
    simp only [hp] at h; exact ⟨h.1.snoc hk hs, h.2.1, h.2.2.1.mono, h.2.2.2⟩
  | renamingCert c k =>
    simp only [hp] at h; exact ⟨h.1.snoc hk hs, h.2.1, h.2.2.1.mono, h.2.2.2⟩
  | renamingKey c k =>
    simp only [hp] at h; exact ⟨h.1.snoc hk hs, h.2.1, h.2.2.1.mono, h.2.2.2⟩
  | writingIssuedAt c k => simp only [hp] at h; exact ⟨h.1.snoc hk hs, h.2.1, h.2.2.mono⟩
  | returning result =>
    cases result with
    | error m => simp only [hp] at h; exact h.snoc hk hs hpair
    | ok issued => simp only [hp] at h; exact ⟨h.1.snoc hk hs, h.2.1, h.2.2.mono⟩

theorem renameKey_of_phase {pc : Pc} {certPem keyPem : String}
    (h : pc.phase = .renamingKey certPem keyPem) : pc = .renameKey certPem keyPem := by
  cases pc <;> cases h
  rfl

theorem writeIssuedAt_of_phase {pc : Pc} {certPem keyPem : String}
    (h : pc.phase = .writingIssuedAt certPem keyPem) : pc = .writeIssuedAt certPem keyPem := by
  cases pc <;> cases h
  rfl

theorem Stage.givenUp {call : Call} {w : World} {tr : Trace} {s : Process} {m : ProxyError}
    (herr : s.pc.phase = .returning (.error m)) (hclean : Clean call tr)
    (hpair : s.pair = pairOf w.files) : Stage call w tr s := by
  simp only [Stage, herr]
  exact .untouched hclean hpair

theorem stage_renamingKey {call : Call} {w world : World} {tr : Trace} {s : Process} {r : Reply}
    {pc : Pc} {c k : String} (hp : s.pc.phase = .renamingKey c k) (hs : Stage call w tr s)
    (hstep : step call s.world s.pc r = some (world, pc)) :
    Stage call w (tr ++ [(s, .reply r)]) ⟨world, pc⟩ := by
  simp only [Stage, hp] at hs
  obtain ⟨hclean, hpair, hissued, hkey⟩ := hs
  rcases renamingKey_step hp hstep with ⟨hr, hnext, hnew, hold⟩ | ⟨⟨m, hr⟩, hf, e, herr⟩
  · have hk : ¬ KeyRenameFails s (.reply r) := by
      rintro ⟨_, m, hm⟩
      cases hr.symm.trans (Event.reply.inj hm)
    have hcert : world.files .cert = some c := hold.trans (Prod.mk.inj hpair).1
    simp only [Stage, hnext]
    refine ⟨hclean.snoc hk (not_sidecarFails_of_phase (by simp [hp])), ?_, hissued.mono⟩
    simp only [Process.pair, pairOf, hnew, hkey, hcert]
  · simp only [Stage, herr]
    refine .torn ?_ c k hissued.mono (by simpa only [Process.pair, hf] using hpair)
    intro hall
    exact (hall (s, .reply r) (by simp)) ⟨⟨c, k, renameKey_of_phase hp⟩, m, by rw [hr]⟩

theorem stage_writingIssuedAt {call : Call} {w world : World} {tr : Trace} {s : Process}
    {r : Reply} {pc : Pc} {c k : String} (hp : s.pc.phase = .writingIssuedAt c k)
    (hs : Stage call w tr s) (hstep : step call s.world s.pc r = some (world, pc)) :
    Stage call w (tr ++ [(s, .reply r)]) ⟨world, pc⟩ := by
  simp only [Stage, hp] at hs
  obtain ⟨hclean, hpair, hissued⟩ := hs
  have hk : ¬ KeyRenameFails s (.reply r) := not_keyRenameFails_of_phase (by simp [hp])
  obtain ⟨hsame, fs, hr, hout⟩ := writingIssuedAt_step hp hstep
  have hpair' : pairOf world.files = (some c, some k) := hsame.trans hpair
  rcases hout with ⟨hnext, hok⟩ | ⟨hv, hfs, m, herr⟩
  · simp only [Stage, hnext]
    refine ⟨hclean.snoc hk ?_, hpair', hissued.mono⟩
    rintro ⟨hv, _, fs', hm, hne⟩
    cases hr.symm.trans (Event.reply.inj hm)
    exact hne (hok hv)
  · simp only [Stage, herr]
    refine .replaced (by simpa using ⟨hclean.1, hk⟩) ?_ c k hissued.mono hpair'
    intro hall
    exact (hall (s, .reply r) (by simp))
      ⟨hv, ⟨c, k, writeIssuedAt_of_phase hp⟩, fs, by rw [hr], hfs⟩

theorem stage_step {call : Call} {w : World} {tr : Trace} {s s' : Process} {e : Event}
    (hs : Stage call w tr s) (h : next call s e = some s') :
    Stage call w (tr ++ [(s, e)]) s' := by
  cases e with
  | clock instant wall =>
    simp only [next, Option.ite_none_right_eq_some, Option.some.injEq] at h
    obtain ⟨_, rfl⟩ := h
    exact hs.frame (by rintro ⟨_, m, hm⟩; cases hm) (by rintro ⟨_, _, fs, hm, _⟩; cases hm)
      rfl rfl
  | reply r =>
    obtain ⟨⟨world, pc⟩, hstep, rfl⟩ := Option.map_eq_some_iff.mp h
    have hk : (∀ c k, s.pc.phase ≠ .renamingKey c k) → ¬ KeyRenameFails s (.reply r) :=
      not_keyRenameFails_of_phase
    have hi : (∀ c k, s.pc.phase ≠ .writingIssuedAt c k) → ¬ SidecarFails call s (.reply r) :=
      not_sidecarFails_of_phase
    have hstage := hs
    unfold Stage at hs
    cases hp : s.pc.phase with
    | ordering =>
      simp only [hp] at hs
      obtain ⟨hclean, hpair⟩ := hs
      have hclean' := hclean.snoc (hk (by simp [hp])) (hi (by simp [hp]))
      rcases ordering_step hp hstep with hearly | ⟨c, k, d, hpc, hr, hw, hpc'⟩
      · have hpair' : pairOf world.files = pairOf w.files :=
          (pairOf_of_agree hearly.files).trans hpair
        rcases hearly.phase with hord | ⟨m, herr⟩
        · have hord : pc.phase = .ordering := hord
          simp only [Stage, hord]
          exact ⟨hclean', hpair'⟩
        · exact Stage.givenUp herr hclean' hpair'
      · subst hw hpc' hr
        refine ⟨hclean', hpair, (s, _), by simp, d, hpc, rfl⟩
    | writingCertTmp c k =>
      simp only [hp] at hs
      obtain ⟨hclean, hpair, hissued⟩ := hs
      have hclean' := hclean.snoc (hk (by simp [hp])) (hi (by simp [hp]))
      obtain ⟨hsame, hout⟩ := writingCertTmp_step hp hstep
      have hpair' : pairOf world.files = pairOf w.files := hsame.trans hpair
      rcases hout with ⟨hnext, htmp⟩ | ⟨m, herr⟩
      · simp only [Stage, hnext]
        exact ⟨hclean', hpair', hissued.mono, htmp⟩
      · exact Stage.givenUp herr hclean' hpair'
    | writingKeyTmp c k =>
      simp only [hp] at hs
      obtain ⟨hclean, hpair, hissued, hcert⟩ := hs
      have hclean' := hclean.snoc (hk (by simp [hp])) (hi (by simp [hp]))
      obtain ⟨hsame, hkeep, hout⟩ := writingKeyTmp_step hp hstep
      have hpair' : pairOf world.files = pairOf w.files := hsame.trans hpair
      rcases hout with ⟨hnext, htmp⟩ | ⟨m, herr⟩
      · simp only [Stage, hnext]
        exact ⟨hclean', hpair', hissued.mono, hkeep.trans hcert, htmp⟩
      · exact Stage.givenUp herr hclean' hpair'
    | renamingCert c k =>
      simp only [hp] at hs
      obtain ⟨hclean, hpair, hissued, hcert, hkey⟩ := hs
      have hclean' := hclean.snoc (hk (by simp [hp])) (hi (by simp [hp]))
      rcases renamingCert_step hp hstep with ⟨hnext, hnew, hold, htmp⟩ | ⟨hf, m, herr⟩
      · simp only [Stage, hnext]
        have hkeep : world.files .key = w.files .key := hold.trans (Prod.mk.inj hpair).2
        refine ⟨hclean', ?_, hissued.mono, htmp.trans hkey⟩
        simp only [Process.pair, pairOf, hnew, hcert, hkeep]
      · exact Stage.givenUp herr hclean' (by simpa only [Process.pair, hf] using hpair)
    | renamingKey c k => exact stage_renamingKey hp hstage hstep
    | writingIssuedAt c k => exact stage_writingIssuedAt hp hstage hstep
    | returning result =>
      have hk' := hk (by simp [hp])
      have hi' := hi (by simp [hp])
      obtain ⟨hsame, hnext⟩ := returning_step hp hstep
      cases result with
      | error m =>
        simp only [hp] at hs
        simp only [Stage, hnext]
        exact hs.snoc hk' hi' hsame
      | ok issued =>
        simp only [hp] at hs
        simp only [Stage, hnext]
        exact ⟨hs.1.snoc hk' hi', hsame.trans hs.2.1, hs.2.2.mono⟩

theorem stage_run {call : Call} {w : World} {tr : Trace} {u : Process}
    (h : Run (next call) (start w) tr u) : Stage call w tr u := by
  induction h with
  | nil => exact ⟨by simp [Clean], rfl⟩
  | snoc _ hn ih => exact stage_step ih hn

theorem torn_not_atomic {w : World} {tr : Trace} {u : Process} {certPem keyPem : String}
    (hfresh : FreshPair w tr) (hi : IssuedIn tr certPem keyPem)
    (hp : u.pair = (some certPem, w.files .key)) : ¬ Atomic w tr u := by
  intro ha
  have hnew := hfresh certPem keyPem hi
  rcases ha.matching with hold | hnone | ⟨c, k, hck, hpair⟩
  · have hcert : w.files .cert = some certPem := (Prod.mk.inj (hold.symm.trans hp)).1
    exact hnew.1 hcert
  · have hcert : (none : Option String) = some certPem := (Prod.mk.inj (hnone.symm.trans hp)).1
    cases hcert
  · have hkey : w.files .key = some k := (Prod.mk.inj (hp.symm.trans hpair)).2
    exact (hfresh c k hck).2 hkey

/-- What the invariant says at a crash point: untouched, caught between the renames, replaced
by a call that has not failed, or on the way out with an error. -/
theorem stage_cases {call : Call} {w : World} {tr : Trace} {u : Process}
    (h : Stage call w tr u) :
    (Clean call tr ∧ (∀ c k, u.pc ≠ .renameKey c k) ∧ u.pair = pairOf w.files) ∨
    (∃ c k, u.pc = .renameKey c k ∧ IssuedIn tr c k ∧ u.pair = (some c, w.files .key)) ∨
    (Clean call tr ∧ (∀ c k, u.pc ≠ .renameKey c k) ∧ (∀ e, u.pc ≠ .done (.error e)) ∧
      ∃ c k, IssuedIn tr c k ∧ u.pair = (some c, some k)) ∨
    ((∃ e, u.pc.phase = .returning (.error e)) ∧ Leaves call w tr u) := by
  have notKey : (∀ c k, u.pc.phase ≠ .renamingKey c k) → ∀ c k, u.pc ≠ .renameKey c k := by
    intro hne c k hpc
    apply hne c k
    rw [hpc]; rfl
  have notErr : (∀ e, u.pc.phase ≠ .returning (.error e)) → ∀ e, u.pc ≠ .done (.error e) := by
    intro hne e hpc
    apply hne e
    rw [hpc]; rfl
  unfold Stage at h
  cases hp : u.pc.phase with
  | ordering => simp only [hp] at h; exact Or.inl ⟨h.1, notKey (by simp [hp]), h.2⟩
  | writingCertTmp c k => simp only [hp] at h; exact Or.inl ⟨h.1, notKey (by simp [hp]), h.2.1⟩
  | writingKeyTmp c k => simp only [hp] at h; exact Or.inl ⟨h.1, notKey (by simp [hp]), h.2.1⟩
  | renamingCert c k => simp only [hp] at h; exact Or.inl ⟨h.1, notKey (by simp [hp]), h.2.1⟩
  | renamingKey c k =>
    simp only [hp] at h
    exact Or.inr (Or.inl ⟨c, k, renameKey_of_phase hp, h.2.2.1, h.2.1⟩)
  | writingIssuedAt c k =>
    simp only [hp] at h
    exact Or.inr (Or.inr (Or.inl ⟨h.1, notKey (by simp [hp]), notErr (by simp [hp]), c, k,
      h.2.2, h.2.1⟩))
  | returning result =>
    cases result with
    | error e => simp only [hp] at h; exact Or.inr (Or.inr (Or.inr ⟨⟨e, rfl⟩, h⟩))
    | ok issued =>
      simp only [hp] at h
      exact Or.inr (Or.inr (Or.inl ⟨h.1, notKey (by simp [hp]), notErr (by simp [hp]),
        issued.1, issued.2, h.2.2, h.2.1⟩))

theorem atomic_of_holdsWhen {call : Call} {w : World} {tr : Trace} {u : Process}
    (h : Stage call w tr u) (hw : HoldsWhen call tr u) : Atomic w tr u := by
  rcases stage_cases h with ⟨_, _, hold⟩ | ⟨c, k, hpc, _, _⟩ | ⟨_, _, hne, c, k, hi, hnew⟩ |
    ⟨⟨e, hp⟩, hl⟩
  · exact ⟨Or.inl hold, fun _ _ => hold⟩
  · exact absurd hpc (hw.notBetween c k)
  · exact ⟨Or.inr (Or.inr ⟨c, k, hi, hnew⟩), fun e he => absurd he (hne e)⟩
  · cases hl with
    | untouched clean pair => exact ⟨Or.inl pair, fun _ _ => pair⟩
    | torn failed => exact absurd hw.keyRenamed failed
    | replaced renamed failed c k hi pair =>
      refine ⟨Or.inr (Or.inr ⟨c, k, hi, pair⟩), ?_⟩
      intro m hm
      exact absurd (hw.recorded ⟨_, hm⟩) failed

theorem holdsWhen_of_atomic {call : Call} {w : World} {tr : Trace} {u : Process}
    (h : Stage call w tr u) (hf : FreshPair w tr) (ha : Atomic w tr u) :
    HoldsWhen call tr u := by
  rcases stage_cases h with ⟨hclean, hne, _⟩ | ⟨c, k, _, hi, htorn⟩ | ⟨hclean, hne, _⟩ |
    ⟨⟨e, hp⟩, hl⟩
  · exact ⟨hne, hclean.1, fun _ => hclean.2⟩
  · exact absurd ha (torn_not_atomic hf hi htorn)
  · exact ⟨hne, hclean.1, fun _ => hclean.2⟩
  · have hne : ∀ c k, u.pc ≠ .renameKey c k := by
      intro c k hpc
      rw [hpc] at hp
      cases hp
    cases hl with
    | untouched clean pair => exact ⟨hne, clean.1, fun _ => clean.2⟩
    | torn failed c k hi pair => exact absurd ha (torn_not_atomic hf hi pair)
    | replaced renamed failed c k hi pair =>
      refine ⟨hne, renamed, ?_⟩
      rintro ⟨result, hpc⟩
      have hres : result = .error e := by
        rw [hpc] at hp
        exact Phase.returning.inj hp
      have hold := ha.untouched e (hres ▸ hpc)
      have hcert : w.files .cert = some c := (Prod.mk.inj (hold.symm.trans pair)).1
      exact absurd hcert (hf c k hi).1

/-- At every crash point of every run of either variant the condition is enough for the pair
to have been replaced atomically. Where the order issued a new pair it is also necessary. -/
theorem replacement_atomic (call : Call) (w : World) {tr : Trace} {u : Process}
    (h : Run (next call) (start w) tr u) :
    (HoldsWhen call tr u → Atomic w tr u) ∧
    (FreshPair w tr → (Atomic w tr u ↔ HoldsWhen call tr u)) := by
  have hs := stage_run h
  constructor
  · intro hw
    exact atomic_of_holdsWhen hs hw
  · intro hf
    constructor
    · intro ha
      exact holdsWhen_of_atomic hs hf ha
    · intro hw
      exact atomic_of_holdsWhen hs hw

def sampleCall : Call :=
  ⟨.provision "0.0.0.0:80", ⟨"ops@example.com", defaultAcmeDirectory, "/cache", ["example.com"]⟩⟩

def sampleWorld : World where
  files f := match f with | .cert => some "old cert" | .key => some "old key" | _ => none
  challenges := noChallenges
  responder := none
  instant := 0
  wall := 1700000000

def sampleOrder : List Event :=
  [.reply (.unit (.ok ())), .reply (.fs .ok), .reply (.fs .ok), .reply (.unit (.ok ())),
   .reply (.unit (.ok ())), .reply (.authorizations (.ok [⟨[⟨.http01, "t", "url", "t.auth"⟩]⟩])),
   .reply .proceed, .reply .proceed, .reply (.unit (.ok ())), .reply (.unit (.ok ())),
   .reply .proceed, .clock (secs 3) 1700000003, .reply .proceed,
   .reply (.orderStatus (.ok .ready)), .reply (.unit (.ok ())), .reply (.keyPair (.ok "new key")),
   .reply (.unit (.ok ())), .reply (.unit (.ok ())), .clock (secs 4) 1700000004, .reply .proceed,
   .reply (.certificate (.ok (some "new cert"))), .reply (.fs .ok), .reply (.fs .ok),
   .reply (.fs .ok)]

theorem replacement_atomic_completed : ∃ tr u, Run (next sampleCall) (start sampleWorld) tr u ∧
    u.pc = .done (.ok ("new cert", "new key")) ∧ Atomic sampleWorld tr u := by
  obtain ⟨u, hr, hpc⟩ := run_of_view (next sampleCall) (start sampleWorld)
    (sampleOrder ++ [.reply (.fs .ok), .reply (.fs .ok), .reply (.fs .ok)])
    Process.pc (.done (.ok ("new cert", "new key"))) rfl
  have hs : Stage sampleCall sampleWorld _ u := stage_run hr
  have hp : u.pc.phase = .returning (.ok ("new cert", "new key")) := by rw [hpc]; rfl
  simp only [Stage, hp] at hs
  have hw : HoldsWhen sampleCall _ u :=
    ⟨by simp [hpc], hs.1.1, fun _ => hs.1.2⟩
  exact ⟨_, u, hr, hpc, (replacement_atomic sampleCall sampleWorld hr).1 hw⟩

/-- The rename of the key fails: the call returns an error and leaves the new certificate with
the old key. -/
theorem replacement_torn : ¬ ∀ (call : Call) (w : World) (tr : Trace) (u : Process),
    Run (next call) (start w) tr u → Atomic w tr u := by
  intro hall
  obtain ⟨u, hr, hv⟩ := run_of_view (next sampleCall) (start sampleWorld)
    (sampleOrder ++ [.reply (.fs (.failed "EIO")), .reply (.fs .ok), .reply (.fs .ok),
      .reply (.fs .ok)])
    (fun u => (u.pc, u.pair))
    (.done (.error (.acme "rename key.pem: EIO")), (some "new cert", some "old key")) rfl
  obtain ⟨hpc, hpair⟩ := Prod.mk.inj hv
  have hold := (hall _ _ _ u hr).untouched _ hpc
  have hcert : some "new cert" = some "old cert" := (Prod.mk.inj (hpair.symm.trans hold)).1
  exact absurd hcert (by decide)

end AcmeReplacement
