import PrismProxy.TestedLock
import PrismProxy.AcmeProvisionSteps

/-! # The lockfile of a provisioning call

`.renewing` seen as a tested lock: `exists` is the test, the write of the empty file takes the
lock, `remove_file` gives it up, and the temporary files of a failed call are removed after
that. -/
namespace ProvisionLock

open ProxyConfig CertificateCache AcmeProvision

variable {ι : Type*}

def lockPhase : Pc → TestedLock.Phase
  | .createDir | .checkLock => .idle
  | .createLock => .tested
  | .removeCertTmp _ | .removeKeyTmp _ => .leaving
  | .clearStore _ | .done _ => .finished
  | _ => .holding

def isLocked (files : CacheDir) : Bool := (files .renewing).isSome

theorem lockPhase_finish (call : Call) (result : Except ProxyError Issued) :
    lockPhase (finish call result) = .finished := by
  unfold finish
  split <;> rfl

def succeeded : Reply → Bool
  | .fs .ok => true
  | _ => false

/-- What a step of call `i` is to the lock. -/
def lockEvent (i : ι) : Pc → Reply → Pc → Option (TestedLock.Event ι)
  | .checkLock, .fs r, .createLock => some (.test i (decide (r ≠ .ok)))
  | .createDir, _, .done _ | .checkLock, _, .done _ => some (.refuse i)
  | .createLock, _, .done _ => some (.giveUp i)
  | .createLock, _, _ => some (.set i)
  | .unlock (.error _), r, _ => some (.release i (succeeded r) true)
  | .unlock (.ok _), r, _ => some (.release i (succeeded r) false)
  | .removeKeyTmp _, _, _ => some (.finish i)
  | _, _, _ => none

theorem lockEvent_test {i j : ι} {pc pc' : Pc} {r : Reply} {blind : Bool}
    (h : lockEvent i pc r pc' = some (.test j blind)) :
    pc = .checkLock ∧ pc' = .createLock ∧ ∃ fs, r = .fs fs ∧ blind = decide (fs ≠ .ok) := by
  unfold lockEvent at h
  split at h <;> cases h
  exact ⟨rfl, rfl, _, rfl, rfl⟩

theorem lockEvent_release {i j : ι} {pc pc' : Pc} {r : Reply} {removed cleanup : Bool}
    (h : lockEvent i pc r pc' = some (.release j removed cleanup)) :
    (∃ result, pc = .unlock result) ∧ removed = succeeded r := by
  unfold lockEvent at h
  split at h <;> cases h <;> exact ⟨⟨_, rfl⟩, rfl⟩

structure Working (w : World) (o : World × Pc) : Prop where
  lock : o.1.files .renewing = w.files .renewing
  phase : lockPhase o.2 = .holding

theorem Working.stay {w w' : World} {pc : Pc} (hf : w'.files = w.files)
    (hp : lockPhase pc = .holding) : Working w (w', pc) := ⟨by rw [hf], hp⟩

theorem Working.fail {call : Call} {w : World} {files : CacheDir}
    {result : Except ProxyError Issued} (hf : files .renewing = w.files .renewing) :
    Working w (dropServer call { w with files }, .unlock result) :=
  ⟨by rw [dropServer_files]; exact hf, rfl⟩

theorem renameFile_other {files files' : CacheDir} {src dst g : CacheFile} {reply : FsReply}
    {res : Except String Unit} (h : renameFile files src dst reply = some (res, files'))
    (hs : g ≠ src) (hd : g ≠ dst) : files' g = files g := by
  cases res with
  | ok =>
    obtain ⟨content, _, rfl⟩ := renameFile_ok h
    simp [hs, hd]
  | error e => rw [(renameFile_error h).1]

theorem working_step {call : Call} {w : World} {o : World × Pc} {pc : Pc} {r : Reply}
    (hp : lockPhase pc = .holding) (hu : ∀ result, pc ≠ .unlock result)
    (h : step call w pc r = some o) : Working w o := by
  cases step_cases h with
  | failed _ _ message _ => exact Working.fail rfl
  | orderReady deadline => exact Working.stay (dropServer_files call w) rfl
  | certTmpWritten _ _ fs files write => exact ⟨writeFile_other write (by decide), rfl⟩
  | keyTmpWritten _ _ fs files write => exact ⟨writeFile_other write (by decide), rfl⟩
  | issuedAtWritten _ _ fs res files write _ => exact ⟨writeFile_other write (by decide), rfl⟩
  | certTmpFailed _ _ fs e m files write => exact Working.fail (writeFile_other write (by decide))
  | keyTmpFailed _ _ fs e m files write => exact Working.fail (writeFile_other write (by decide))
  | issuedAtFailed _ _ fs e m files write _ =>
    exact Working.fail (writeFile_other write (by decide))
  | certRenamed _ _ fs files rename =>
    exact ⟨renameFile_other rename (by decide) (by decide), rfl⟩
  | keyRenamed _ _ fs files rename =>
    exact ⟨renameFile_other rename (by decide) (by decide), rfl⟩
  | certKept _ _ fs e m files rename =>
    exact Working.fail (renameFile_other rename (by decide) (by decide))
  | keyKept _ _ fs e m files rename =>
    exact Working.fail (renameFile_other rename (by decide) (by decide))
  | gaveUp e fs files _ => exact absurd rfl (hu _)
  | succeeded issued fs files _ => exact absurd rfl (hu _)
  | _ => first | exact Working.stay rfl rfl | cases hp

theorem orders_holding {pc : Pc} (h : pc.orders = true) :
    lockPhase pc = .holding ∧ ∀ result, pc ≠ .unlock result := by
  cases pc <;> cases h <;> exact ⟨rfl, by simp⟩

variable [DecidableEq ι]

/-- What a step of call `i` makes of the lock it shares with others. -/
def lockAfter (s : TestedLock.State ι) (i : ι) (w : World) (pc : Pc) : TestedLock.State ι :=
  ⟨isLocked w.files, Function.update s.phase i (lockPhase pc)⟩

def Follows (s t : TestedLock.State ι) : Option (TestedLock.Event ι) → Prop
  | none => t = s
  | some a => TestedLock.next s a = some t

theorem lockAfter_same {s : TestedLock.State ι} {i : ι} {w : World} {pc : Pc}
    (hpc : s.phase i = lockPhase pc) (hl : s.locked = isLocked w.files) :
    lockAfter s i w pc = s := by
  rw [lockAfter, ← hpc, ← hl, Function.update_eq_self]

theorem lockAfter_goto {s : TestedLock.State ι} {i : ι} {w : World} {pc : Pc}
    (hl : s.locked = isLocked w.files) : lockAfter s i w pc = s.goto i (lockPhase pc) := by
  simp [lockAfter, TestedLock.State.goto, hl]

theorem writeLock_error {files files' : CacheDir} {reply : FsReply} {e : String}
    (h : writeFile files .renewing "" reply = some (.error e, files')) : files' = files := by
  cases reply with
  | ok => cases h
  | failed e => cases h; rfl
  | torn n e => simp [writeFile] at h

theorem removeLock_isLocked {files files' : CacheDir} {reply : FsReply}
    (h : removeFile files .renewing reply = some files') :
    isLocked files' = (isLocked files && !succeeded (.fs reply)) := by
  cases reply with
  | ok => cases h; simp [isLocked, succeeded]
  | failed e => cases h; simp [succeeded]
  | torn n e => cases h

theorem lock_follows {s : TestedLock.State ι} {i : ι} {call : Call} {w w' : World} {pc pc' : Pc}
    {r : Reply} (hpc : s.phase i = lockPhase pc) (hl : s.locked = isLocked w.files)
    (h : step call w pc r = some (w', pc')) :
    Follows s (lockAfter s i w' pc') (lockEvent i pc r pc') := by
  have same : ∀ {v : World} {q : Pc}, lockPhase q = lockPhase pc →
      v.files .renewing = w.files .renewing → lockAfter s i v q = s := by
    intro v q hq hv
    exact lockAfter_same (hpc.trans hq.symm) (by rw [hl, isLocked, isLocked, hv])
  by_cases hhold : lockPhase pc = .holding ∧ ∀ result, pc ≠ .unlock result
  · have hw := working_step hhold.1 hhold.2 h
    have hno : lockEvent i pc r pc' = none := by
      cases pc <;> first | rfl | exact absurd rfl (hhold.2 _) | cases hhold.1
    rw [hno]
    exact same (hw.phase.trans hhold.1.symm) hw.lock
  cases step_cases h with
  | dirMade => exact same rfl rfl
  | noDir e =>
    rw [lockAfter_goto hl]
    simp [lockEvent, Follows, TestedLock.next, hpc, lockPhase]
  | unlocked fs absent =>
    rw [lockAfter_goto hl]
    cases fs with
    | ok =>
      have hopen : s.locked = false := by simpa [fileExists, hl, isLocked] using absent
      simp [lockEvent, Follows, TestedLock.next, hpc, lockPhase, hopen]
    | failed e => simp [lockEvent, Follows, TestedLock.next, hpc, lockPhase]
    | torn n e => cases absent
  | locked fs found =>
    rw [lockAfter_goto hl]
    simp [lockEvent, Follows, TestedLock.next, hpc, lockPhase]
  | lockMade fs files write =>
    have htaken : isLocked files = true := by rw [isLocked, writeFile_ok write]; rfl
    simp [lockEvent, Follows, TestedLock.next, hpc, lockPhase, lockAfter, htaken,
      TestedLock.State.goto]
  | noLock fs e files write =>
    obtain rfl := writeLock_error write
    rw [lockAfter_goto hl]
    simp [lockEvent, Follows, TestedLock.next, hpc, lockPhase]
  | gaveUp e fs files remove =>
    have hafter := removeLock_isLocked remove
    simp [lockEvent, Follows, TestedLock.next, hpc, lockPhase, lockAfter, hafter, hl,
      TestedLock.State.goto]
  | succeeded issued fs files remove =>
    have hafter := removeLock_isLocked remove
    simp only [lockAfter, lockPhase_finish]
    simp [lockEvent, Follows, TestedLock.next, hpc, lockPhase, hafter, hl,
      TestedLock.State.goto]
  | certTmpRemoved result fs files remove => exact same rfl (removeFile_other remove (by decide))
  | keyTmpRemoved result fs files remove =>
    have hkeep : files .renewing = w.files .renewing := removeFile_other remove (by decide)
    rw [lockAfter_goto (by simp only [hl, isLocked, hkeep]), lockPhase_finish]
    simp [lockEvent, Follows, TestedLock.next, hpc, lockPhase]
  | storeCleared result => exact same rfl rfl
  | failed _ _ message orders => exact absurd (orders_holding orders) hhold
  | _ => exact absurd ⟨rfl, by simp⟩ hhold

end ProvisionLock
