import Mathlib.Data.Nat.Basic
import PrismProxy.SnapshotRegister
import PrismProxy.ProxyServerSteps

/-! # Two loops publishing into one `ArcSwap`

The reload loop and the renewal loop each take a snapshot of the config file and publish it
later. Seen so, the server is a snapshot register: versions are modification times, and a
loop that has read a config holds a snapshot until it stores or gives up. -/
namespace PublicationOrder

open TransitionRuns SnapshotRegister ProxyConfig StatePublication ProxyServer

variable {H : Host}

def heldByReload : ReloadPc H → Option (Reading H)
  | .building _ r _ => some r.toReading
  | _ => none

def heldByRenewal : RenewalPc H → Option (Reading H)
  | .checkCert r | .checkIssuedAt r | .provisioning r _ _ | .building r _ => some r.toReading
  | _ => none

def held (s : ProxyServer.State H) : Writer → Option (Reading H)
  | .main => none
  | .reload => s.reload.bind heldByReload
  | .renewal => s.renewal.bind heldByRenewal

def Reading.snapshot (r : Reading H) : Snapshot ℕ := ⟨r.version.mtime, r.readAt⟩

def mtimes (s : ProxyServer.State H) : List ℕ := s.log.map fun p => p.version.mtime

def register (s : ProxyServer.State H) : Register ℕ Writer where
  current := s.file.mtime
  log := mtimes s
  held w := (held s w).map Reading.snapshot

def reloadLabel (pc : ReloadPc H) : ReloadEffect H → Option (SnapshotRegister.Event ℕ Writer)
  | .store _ _ => some (.publish .reload)
  | .goto (.building _ _ _) =>
    match pc with
    | .read _ => some (.take .reload)
    | _ => none
  | .goto _ => some (.drop .reload)

def renewalLabel : RenewalEffect H → Option (SnapshotRegister.Event ℕ Writer)
  | .store _ => some (.publish .renewal)
  | .goto (.checkCert _) => some (.take .renewal)
  | .goto .tick | .goto .readConfig | .provision _ _ .tick => some (.drop .renewal)
  | _ => none

def label (s : ProxyServer.State H) :
    ProxyServer.Event → Option (SnapshotRegister.Event ℕ Writer)
  | .writeConfig v => some (.write v.mtime)
  | .reload r => s.reload.bind fun pc => (reloadStep s pc r).bind (reloadLabel pc)
  | .renewal r => s.renewal.bind fun pc => (renewalStep s pc r).bind renewalLabel
  | _ => none

/-- Start-up has published and spawned the reload loop. -/
structure Settled (s : ProxyServer.State H) : Prop where
  main : s.main.starting = false ∧ ∀ boot, s.main ≠ .stat boot
  port : ∀ boot, s.main = .readPort boot → s.renewal = none

/-- Each file write has a modification time above the one before. -/
def Increasing (s : ProxyServer.State H) (e : ProxyServer.Event) : Prop :=
  ∀ v, e = .writeConfig v → s.file.mtime < v.mtime

instance (s : ProxyServer.State H) : (e : ProxyServer.Event) → Decidable (Increasing s e)
  | .writeConfig v => decidable_of_iff (s.file.mtime < v.mtime)
      ⟨fun h w hw => by cases hw; exact h, fun h => h v rfl⟩
  | .editCache _ _ | .clock _ _ | .ping _ _ | .main _ | .reload _ | .renewal _ | .accept
  | .acceptError _ | .shutdown | .dispatch => isTrue nofun

theorem settled_main {s : ProxyServer.State H} {r : Reply} {eff : MainEffect H}
    (hs : Settled s) (he : mainStep s s.main r = some eff) :
    (∃ m, eff = .goto (.returned (.error m))) ∨
    ∃ boot redirect, s.main = .readPort boot ∧ eff = .renew redirect := by
  generalize hpc : s.main = pc at he
  have hm := hs.main
  rw [hpc] at hm
  cases mainStep_cases he with
  | leave _ _ m => exact Or.inl ⟨m, rfl⟩
  | renew boot reply redirect => exact Or.inr ⟨boot, redirect, rfl, rfl⟩
  | watch boot => exact absurd rfl (hm.2 boot)
  | _ => cases hm.1

theorem settled_step {s t : ProxyServer.State H} {e : ProxyServer.Event} (hs : Settled s)
    (h : Step s e t) : Settled t := by
  cases h with
  | main r eff he =>
    rcases settled_main hs he with ⟨m, rfl⟩ | ⟨boot, redirect, _, rfl⟩
    · exact ⟨⟨rfl, nofun⟩, nofun⟩
    · exact ⟨⟨rfl, nofun⟩, nofun⟩
  | reload r pc eff hpc he => cases eff <;> exact ⟨hs.main, hs.port⟩
  | renewal r pc eff hpc he =>
    have hno : ∀ boot, s.main ≠ .readPort boot := by
      intro boot hm
      rw [hs.port boot hm] at hpc
      cases hpc
    cases eff <;> exact ⟨hs.main, fun boot hm => absurd hm (hno boot)⟩
  | acceptError m ha => exact ⟨⟨rfl, nofun⟩, nofun⟩
  | shutdown ha => exact ⟨⟨rfl, nofun⟩, nofun⟩
  | _ => exact ⟨hs.main, hs.port⟩

theorem register_congr {s t : ProxyServer.State H} (hf : t.file = s.file) (hl : t.log = s.log)
    (hr : t.reload.bind heldByReload = s.reload.bind heldByReload)
    (hn : t.renewal.bind heldByRenewal = s.renewal.bind heldByRenewal) :
    register t = register s := by
  simp only [register, mtimes, hf, hl, Register.mk.injEq, true_and]
  funext w
  cases w with
  | main => rfl
  | reload => simp only [held, hr]
  | renewal => simp only [held, hn]

theorem register_held {s t : ProxyServer.State H} {w : Writer} {snap : Option (Snapshot ℕ)}
    (hf : t.file = s.file) (hl : t.log = s.log)
    (hw : (held t w).map Reading.snapshot = snap) (ho : ∀ w', w' ≠ w → held t w' = held s w') :
    register t = { register s with held := Function.update (register s).held w snap } := by
  simp only [register, mtimes, hf, hl, Register.mk.injEq, true_and]
  funext w'
  by_cases hww : w' = w
  · subst hww
    rw [Function.update_self, hw]
  · rw [Function.update_of_ne hww, ho w' hww]

theorem register_publish {s t : ProxyServer.State H} {w : Writer} {p : Publication H}
    (hf : t.file = s.file) (hl : t.log = p :: s.log) (hw : held t w = none)
    (hs : held s w = some p.toReading) (ho : ∀ w', w' ≠ w → held t w' = held s w') :
    SnapshotRegister.next (register s) (.publish w) = some (register t) := by
  have hheld : (register s).held w = some (Reading.snapshot p.toReading) := by
    simp [register, hs]
  simp only [SnapshotRegister.next, hheld, Option.map_some, Option.some.injEq]
  simp only [register, mtimes, hf, hl, List.map_cons, Register.mk.injEq, true_and]
  refine ⟨rfl, ?_⟩
  funext w'
  by_cases hww : w' = w
  · subst hww
    rw [Function.update_self, hw]
    rfl
  · rw [Function.update_of_ne hww, ho w' hww]

theorem register_drop {s t : ProxyServer.State H} {w : Writer} (hf : t.file = s.file)
    (hl : t.log = s.log) (hw : held t w = none) (ho : ∀ w', w' ≠ w → held t w' = held s w') :
    SnapshotRegister.next (register s) (.drop w) = some (register t) :=
  congrArg some (register_held hf hl (by rw [hw]; rfl) ho).symm

theorem register_take {s t : ProxyServer.State H} {w : Writer} {r : Reading H}
    (hf : t.file = s.file) (hl : t.log = s.log) (hw : held t w = some r)
    (hv : r.version = s.file) (hr : r.readAt = s.log.length)
    (ho : ∀ w', w' ≠ w → held t w' = held s w') :
    SnapshotRegister.next (register s) (.take w) = some (register t) := by
  refine congrArg some (register_held hf hl ?_ ho).symm
  simp [hw, Reading.snapshot, hv, hr, register, mtimes]

def Follows (s t : ProxyServer.State H) : Option (SnapshotRegister.Event ℕ Writer) → Prop
  | none => register t = register s
  | some a => SnapshotRegister.next (register s) a = some (register t)

theorem reload_follows {s : ProxyServer.State H} {pc : ReloadPc H} {r : Reply}
    {eff : ReloadEffect H} (hpc : s.reload = some pc) (h : ReloadStep s pc r eff) :
    Follows s (s.reloadEffect eff) (reloadLabel pc eff) := by
  have others : ∀ t : ProxyServer.State H, t.renewal = s.renewal →
      ∀ w, w ≠ .reload → held t w = held s w := by
    intro t ht w hw
    cases w with
    | main => rfl
    | reload => exact absurd rfl hw
    | renewal => simp only [held, ht]
  have hheld : held s .reload = heldByReload pc := by simp [held, hpc]
  cases h with
  | fire => exact register_drop rfl rfl rfl (others _ rfl)
  | statFailed m => exact register_drop rfl rfl rfl (others _ rfl)
  | skip => exact register_drop rfl rfl rfl (others _ rfl)
  | newer => exact register_drop rfl rfl rfl (others _ rfl)
  | readFailed mtime reply => exact register_drop rfl rfl rfl (others _ rfl)
  | buildFailed mtime vr view => exact register_drop rfl rfl rfl (others _ rfl)
  | readOk mtime reply vr hv hr => exact register_take rfl rfl rfl hv hr (others _ rfl)
  | build mtime vr b b' a _ =>
    refine register_congr rfl rfl ?_ rfl
    simp [State.reloadEffect, hpc, heldByReload]
  | store mtime vr view p hr _ _ =>
    refine register_publish (p := p) rfl rfl rfl ?_ (others _ rfl)
    rw [hheld, hr]
    rfl

theorem renewal_follows {s : ProxyServer.State H} {pc : RenewalPc H} {r : Reply}
    {eff : RenewalEffect H} (hpc : s.renewal = some pc) (h : RenewalStep s pc r eff) :
    Follows s (s.renewalEffect eff) (renewalLabel eff) := by
  have others : ∀ t : ProxyServer.State H, t.reload = s.reload →
      ∀ w, w ≠ .renewal → held t w = held s w := by
    intro t ht w hw
    cases w with
    | main => rfl
    | reload => simp only [held, ht]
    | renewal => exact absurd rfl hw
  have hheld : held s .renewal = heldByRenewal pc := by simp [held, hpc]
  have same : ∀ (t : ProxyServer.State H) (pc' : RenewalPc H), t.file = s.file →
      t.log = s.log → t.reload = s.reload → t.renewal = some pc' →
      heldByRenewal pc' = heldByRenewal pc → register t = register s := by
    intro t pc' hf hl hr hn hp
    refine register_congr hf hl (by rw [hr]) ?_
    rw [hn, hpc, Option.bind_some, Option.bind_some, hp]
  -- provisioning is left for a build, for the next tick, or not at all
  have started : ∀ rr : RenewalReading H, ∀ store : Bool,
      startProvision store rr = .tick ∨
        ∃ call apc, startProvision store rr = .provisioning rr call apc := by
    intro rr store
    simp only [startProvision]
    split
    · exact Or.inr ⟨_, _, rfl⟩
    · split
      · exact Or.inl rfl
      · exact Or.inr ⟨_, _, rfl⟩
  have starting : ∀ rr : RenewalReading H, heldByRenewal pc = some rr.toReading →
      Follows s (s.renewalEffect (.goto (startProvision s.challengeStore rr)))
        (renewalLabel (.goto (startProvision s.challengeStore rr))) := by
    intro rr hrr
    rcases started rr s.challengeStore with heq | ⟨call, apc, heq⟩
    · rw [heq]
      exact register_drop rfl rfl rfl (others _ rfl)
    · rw [heq]
      exact same _ _ rfl rfl rfl rfl hrr.symm
  cases h with
  | fire => exact register_drop rfl rfl rfl (others _ rfl)
  | readFailed reply => exact register_drop rfl rfl rfl (others _ rfl)
  | notDue rr reply res _ _ => exact register_drop rfl rfl rfl (others _ rfl)
  | buildFailed rr view => exact register_drop rfl rfl rfl (others _ rfl)
  | readOk reply rr hv hr => exact register_take rfl rfl rfl hv hr (others _ rfl)
  | certMissing rr reply _ => exact starting rr rfl
  | due rr reply res _ _ => exact starting rr rfl
  | certFound rr reply _ => exact same _ _ rfl rfl rfl rfl rfl
  | build rr b b' a _ => exact same _ _ rfl rfl rfl rfl rfl
  | provision rr call apc apc' w reply _ =>
    cases apc' with
    | done result =>
      cases result with
      | ok issued => exact same _ _ rfl rfl rfl rfl rfl
      | error m => exact register_drop rfl rfl rfl (others _ rfl)
    | _ => exact same _ _ rfl rfl rfl rfl rfl
  | store rr view p hr _ _ =>
    refine register_publish (p := p) rfl rfl rfl ?_ (others _ rfl)
    rw [hheld, hr]
    rfl

theorem step_follows {s t : ProxyServer.State H} {e : ProxyServer.Event} (hs : Settled s)
    (hi : Increasing s e) (h : Step s e t) : Follows s t (label s e) := by
  cases h with
  | writeConfig v =>
    simp only [label, Follows, SnapshotRegister.next]
    rw [if_pos (show (register s).current < v.mtime from hi v rfl)]
    rfl
  | main r eff he =>
    rcases settled_main hs he with ⟨m, rfl⟩ | ⟨boot, redirect, hm, rfl⟩
    · exact register_congr rfl rfl rfl rfl
    · refine register_congr rfl rfl rfl ?_
      rw [hs.port boot hm]
      rfl
  | reload r pc eff hpc he =>
    have hl : label s (.reload r) = reloadLabel pc eff := by simp [label, hpc, he]
    rw [hl]
    exact reload_follows hpc (reloadStep_cases he)
  | renewal r pc eff hpc he =>
    have hl : label s (.renewal r) = renewalLabel eff := by simp [label, hpc, he]
    rw [hl]
    exact renewal_follows hpc (renewalStep_cases he)
  | _ => exact register_congr rfl rfl rfl rfl

def publishing (H : Host) :
    Simulation (ProxyServer.next (H := H)) (SnapshotRegister.next (V := ℕ) (W := Writer)) where
  ok := Increasing
  inv := Settled
  view := register
  label := label
  keeps _ _ _ hs _ h := settled_step hs (step_of_next h)
  idle s e t hs hi h hl := by
    have hf := step_follows hs hi (step_of_next h)
    rwa [hl] at hf
  move s e t a hs hi h hl := by
    have hf := step_follows hs hi (step_of_next h)
    rwa [hl] at hf

/-- No loop stores a state when, since it read its config, a state from a newer version of the
file has been stored. -/
def NotOvertaken (s : ProxyServer.State H) (e : ProxyServer.Event) : Prop :=
  ∀ w p, storing s e = some (w, p) → ∀ v ∈ since (mtimes s) p.readAt, v ≤ p.version.mtime

/-- No state was stored after one from a newer version of the file. -/
def InOrder (s : ProxyServer.State H) : Prop := Ordered (mtimes s)

theorem storing_label {s : ProxyServer.State H} {e : ProxyServer.Event} {w : Writer}
    {p : Publication H} (hs : Settled s) (h : storing s e = some (w, p)) :
    label s e = some (.publish w) ∧ (register s).held w = some (Reading.snapshot p.toReading) := by
  cases w with
  | main =>
    exfalso
    rcases storing_main h with ⟨r, view, hm, _⟩ | ⟨boot, r, view, hm, _⟩
    · have hst := hs.main.1
      rw [hm] at hst
      cases hst
    · have hst := hs.main.1
      rw [hm] at hst
      cases hst
  | reload =>
    obtain ⟨r, mtime, vr, view, rfl, hpc, hstep, hr, _⟩ := storing_reload h
    constructor
    · simp [label, hpc, hstep, reloadLabel]
    · simp [register, held, hpc, heldByReload, hr]
  | renewal =>
    obtain ⟨r, rr, view, rfl, hpc, hstep, hr, _⟩ := storing_renewal h
    constructor
    · simp [label, hpc, hstep, renewalLabel]
    · simp [register, held, hpc, heldByRenewal, hr]

theorem label_storing {s : ProxyServer.State H} {e : ProxyServer.Event} {w : Writer}
    (h : label s e = some (.publish w)) : ∃ p, storing s e = some (w, p) := by
  cases e with
  | reload r =>
    obtain ⟨pc, hpc, h⟩ := Option.bind_eq_some_iff.mp h
    obtain ⟨eff, heff, h⟩ := Option.bind_eq_some_iff.mp h
    cases eff with
    | store mtime p => cases h; exact ⟨p, by simp [storing, hpc, heff]⟩
    | goto pc' =>
      cases pc' with
      | building mtime vr b => cases pc <;> cases h
      | _ => cases h
  | renewal r =>
    obtain ⟨pc, hpc, h⟩ := Option.bind_eq_some_iff.mp h
    obtain ⟨eff, heff, h⟩ := Option.bind_eq_some_iff.mp h
    cases eff with
    | store p => cases h; exact ⟨p, by simp [storing, hpc, heff]⟩
    | goto pc' => cases pc' <;> cases h
    | provision dir w pc' => cases pc' <;> cases h
  | _ => cases h

theorem notOvertaken_iff {s : ProxyServer.State H} {e : ProxyServer.Event} (hs : Settled s) :
    (∀ a, label s e = some a → SnapshotRegister.NotOvertaken (register s) a) ↔
      NotOvertaken s e := by
  constructor
  · intro h w p hst
    obtain ⟨hl, hheld⟩ := storing_label hs hst
    exact h _ hl _ hheld
  · intro h a hl
    cases a with
    | publish w =>
      intro k hk
      obtain ⟨p, hst⟩ := label_storing hl
      have hheld := (storing_label hs hst).2
      obtain rfl := Option.some.inj (hheld.symm.trans hk)
      exact h w p hst
    | _ => trivial

/-- The reload loop has just been started, with the modification time of the version the
initial state was built from; the renewal loop has too, unless start-up is not that far or
TLS is not configured. -/
structure LoopsStarted (s : ProxyServer.State H) : Prop where
  main : s.main = .serving ∨ ∃ boot, s.main = .readPort boot
  initial : ∃ p, s.log = [p] ∧ s.lastMtime = p.version.mtime ∧ validate p.config = .ok () ∧
    p.version ∈ s.history ∧ (p.version = s.file ∨ p.version.mtime < s.file.mtime)
  onDisk : s.file ∈ s.history
  reload : s.reload = some .tick
  renewal : s.renewal = none ∨ (s.main = .serving ∧ s.renewal = some .tick)

theorem LoopsStarted.settled {s : ProxyServer.State H} (h : LoopsStarted s) : Settled s := by
  rcases h.main with hm | ⟨boot, hm⟩
  · exact ⟨by simp [hm, MainPc.starting], by simp [hm]⟩
  · refine ⟨by simp [hm, MainPc.starting], ?_⟩
    intro _ _
    rcases h.renewal with hn | ⟨hserv, _⟩
    · exact hn
    · rw [hm] at hserv
      cases hserv

theorem LoopsStarted.held {s : ProxyServer.State H} (h : LoopsStarted s) (w : Writer) :
    PublicationOrder.held s w = none := by
  cases w with
  | main => rfl
  | reload => simp [PublicationOrder.held, h.reload, heldByReload]
  | renewal =>
    rcases h.renewal with hn | ⟨_, hn⟩
    · simp [PublicationOrder.held, hn]
    · simp [PublicationOrder.held, hn, heldByRenewal]

theorem LoopsStarted.register {s : ProxyServer.State H} (h : LoopsStarted s) :
    SnapshotRegister.Invariant (register s) ∧ InOrder s := by
  obtain ⟨p, hlog, _, _, _, hv⟩ := h.initial
  have hno : ∀ w k, (PublicationOrder.register s).held w ≠ some k := by
    intro w k hk
    simp [PublicationOrder.register, h.held w] at hk
  have hle : p.version.mtime ≤ s.file.mtime := by
    rcases hv with heq | hlt
    · rw [heq]
    · omega
  refine ⟨⟨?_, ?_, ?_, ?_⟩, ?_⟩
  · intro v hm
    have hmem : v ∈ [p.version.mtime] := by
      simpa [PublicationOrder.register, mtimes, hlog] using hm
    rw [List.mem_singleton.mp hmem]
    exact hle
  · intro w k hk
    exact absurd hk (hno w k)
  · intro w k hk
    exact absurd hk (hno w k)
  · intro w k hk
    exact absurd hk (hno w k)
  · simp [InOrder, mtimes, hlog, Ordered]

abbrev Trace (H : Host) := List (ProxyServer.State H × ProxyServer.Event)

theorem inOrder_iff {s u : ProxyServer.State H} {tr : Trace H} (hs : LoopsStarted s)
    (h : Run ProxyServer.next s tr u) (hinc : Obeys Increasing tr) :
    InOrder u ↔ Obeys NotOvertaken tr := by
  have hset := hs.settled
  have hrun := (publishing H).run h hset hinc
  have hreg := hs.register
  have hiff : Ordered (register u).log ↔ _ := ordered_iff hrun hreg.1 hreg.2
  have hsteps : ∀ p ∈ tr, Settled p.1 :=
    h.invariant_mem (fun _ _ _ ht hn => settled_step ht (step_of_next hn)) hset
  rw [(publishing H).obeys_trace] at hiff
  refine hiff.trans ⟨?_, ?_⟩
  · intro hall p hp
    exact (notOvertaken_iff (hsteps p hp)).mp (hall p hp)
  · intro hall p hp
    exact (notOvertaken_iff (hsteps p hp)).mpr (hall p hp)

def Known (s : ProxyServer.State H) (v : FileVersion) : Prop :=
  v ∈ s.history ∧ (v = s.file ∨ v.mtime < s.file.mtime)

structure Versions (s : ProxyServer.State H) : Prop where
  onDisk : s.file ∈ s.history
  logged : ∀ p ∈ s.log, Known s p.version
  holding : ∀ w r, held s w = some r → Known s r.version
  reading : ∀ m, s.reload = some (.read m) → m ≤ s.file.mtime
  building : ∀ m r b, s.reload = some (.building m r b) → m ≤ r.version.mtime
  seen : ∃ p ∈ s.log, s.lastMtime ≤ p.version.mtime

theorem LoopsStarted.versions {s : ProxyServer.State H} (h : LoopsStarted s) : Versions s := by
  obtain ⟨p, hlog, hlast, _, hhist, hv⟩ := h.initial
  refine ⟨h.onDisk, ?_, ?_, ?_, ?_, ?_⟩
  · intro q hq
    rw [hlog] at hq
    rw [List.mem_singleton.mp hq]
    exact ⟨hhist, hv⟩
  · intro w r hr
    rw [h.held w] at hr
    cases hr
  · intro m hm
    rw [h.reload] at hm
    cases hm
  · intro m r b hm
    rw [h.reload] at hm
    cases hm
  · exact ⟨p, by simp [hlog], hlast.le⟩

theorem Versions.frame {s t : ProxyServer.State H} (h : Versions s) (hf : t.file = s.file)
    (hh : t.history = s.history) (hl : t.log = s.log) (hr : t.reload = s.reload)
    (hm : t.lastMtime = s.lastMtime)
    (hn : ∀ r, held t .renewal = some r → held s .renewal = some r ∨ r.version = s.file) :
    Versions t := by
  have hk : ∀ v, Known t v ↔ Known s v := by simp [Known, hf, hh]
  refine ⟨by rw [hf, hh]; exact h.onDisk, ?_, ?_, ?_, ?_, ?_⟩
  · intro p hp
    exact (hk _).mpr (h.logged p (hl ▸ hp))
  · intro w r hw
    rw [hk]
    cases w with
    | main => cases hw
    | reload =>
      simp only [held, hr] at hw
      exact h.holding .reload r hw
    | renewal =>
      rcases hn r hw with hold | hv
      · exact h.holding .renewal r hold
      · exact ⟨hv ▸ h.onDisk, Or.inl hv⟩
  · intro m hm'
    rw [hf]
    exact h.reading m (hr ▸ hm')
  · intro m r b hb
    exact h.building m r b (hr ▸ hb)
  · obtain ⟨p, hp, hle⟩ := h.seen
    exact ⟨p, hl ▸ hp, hm ▸ hle⟩

theorem Versions.goto {s : ProxyServer.State H} {pc : ReloadPc H} (h : Versions s)
    (hheld : ∀ r, heldByReload pc = some r → Known s r.version)
    (hread : ∀ m, pc = .read m → m ≤ s.file.mtime)
    (hbuild : ∀ m r b, pc = .building m r b → m ≤ r.version.mtime) :
    Versions { s with reload := some pc } := by
  refine ⟨h.onDisk, h.logged, ?_, ?_, ?_, h.seen⟩
  · intro w r hw
    cases w with
    | main => cases hw
    | reload => exact hheld r hw
    | renewal => exact h.holding .renewal r hw
  · intro m hm
    exact hread m (Option.some.inj hm)
  · intro m r b hb
    exact hbuild m r b (Option.some.inj hb)

theorem Versions.release {s : ProxyServer.State H} {pc : ReloadPc H} (h : Versions s)
    (hpc : pc = .tick ∨ pc = .stat) : Versions { s with reload := some pc } := by
  apply h.goto
  · intro r hr
    rcases hpc with rfl | rfl <;> cases hr
  · intro m hm
    rcases hpc with rfl | rfl <;> cases hm
  · intro m r b hb
    rcases hpc with rfl | rfl <;> cases hb

theorem versions_reload {s : ProxyServer.State H} {pc : ReloadPc H} {r : Reply}
    {eff : ReloadEffect H} (hv : Versions s) (hpc : s.reload = some pc)
    (h : ReloadStep s pc r eff) : Versions (s.reloadEffect eff) := by
  cases h with
  | fire => exact hv.release (Or.inr rfl)
  | statFailed m => exact hv.release (Or.inl rfl)
  | skip => exact hv.release (Or.inl rfl)
  | readFailed mtime reply => exact hv.release (Or.inl rfl)
  | buildFailed mtime vr view => exact hv.release (Or.inl rfl)
  | newer _ =>
    apply hv.goto
    · intro rd hrd
      cases hrd
    · intro m hm
      cases hm
      exact le_rfl
    · intro m r b hb
      cases hb
  | readOk mtime reply vr hver hat =>
    apply hv.goto
    · intro rd hrd
      cases hrd
      exact ⟨hver ▸ hv.onDisk, Or.inl hver⟩
    · intro m hm
      cases hm
    · intro m r b hb
      cases hb
      rw [hver]
      exact hv.reading mtime hpc
  | build mtime vr b b' a _ =>
    have hheld : held s .reload = some vr.toReading := by simp [held, hpc, heldByReload]
    apply hv.goto
    · intro rd hrd
      cases hrd
      exact hv.holding .reload _ hheld
    · intro m hm
      cases hm
    · intro m r b'' hb
      cases hb
      exact hv.building mtime vr b hpc
  | store mtime vr view p hr _ _ =>
    have hheld : held s .reload = some vr.toReading := by simp [held, hpc, heldByReload]
    have hver : p.version = vr.version := congrArg Reading.version hr
    refine ⟨hv.onDisk, ?_, ?_, ?_, ?_, ?_⟩
    · intro q hq
      rcases List.mem_cons.mp hq with rfl | hq
      · rw [hver]
        exact hv.holding .reload _ hheld
      · exact hv.logged q hq
    · intro w rd hw
      cases w with
      | main => cases hw
      | reload => cases hw
      | renewal => exact hv.holding .renewal rd hw
    · intro m hm
      cases hm
    · intro m r b hb
      cases hb
    · -- the recorded time is that of the stat, not later than what was read after it
      refine ⟨p, List.mem_cons_self, ?_⟩
      rw [hver]
      exact hv.building mtime vr _ hpc

theorem versions_renewal {s : ProxyServer.State H} {pc : RenewalPc H} {r : Reply}
    {eff : RenewalEffect H} (hv : Versions s) (hpc : s.renewal = some pc)
    (h : RenewalStep s pc r eff) : Versions (s.renewalEffect eff) := by
  have hheld : held s .renewal = heldByRenewal pc := by simp [held, hpc]
  have started : ∀ rr : RenewalReading H, ∀ rd, heldByRenewal pc = some rr.toReading →
      heldByRenewal (startProvision s.challengeStore rr) = some rd →
      held s .renewal = some rd ∨ rd.version = s.file := by
    intro rr rd hrr hrd
    left
    rw [hheld, hrr, ← hrd]
    simp only [startProvision] at hrd ⊢
    split at hrd
    · rename_i hc; simp [hc, heldByRenewal]
    · rename_i hc
      split at hrd
      · cases hrd
      · simp [hc, heldByRenewal]
  cases h with
  | fire => exact hv.frame rfl rfl rfl rfl rfl fun _ hrd => by cases hrd
  | readFailed reply => exact hv.frame rfl rfl rfl rfl rfl fun _ hrd => by cases hrd
  | notDue rr reply res _ _ => exact hv.frame rfl rfl rfl rfl rfl fun _ hrd => by cases hrd
  | buildFailed rr view => exact hv.frame rfl rfl rfl rfl rfl fun _ hrd => by cases hrd
  | readOk reply rr hver _ =>
    refine hv.frame rfl rfl rfl rfl rfl ?_
    intro rd hrd
    cases hrd
    exact Or.inr hver
  | certFound rr reply _ =>
    exact hv.frame rfl rfl rfl rfl rfl fun rd hrd => Or.inl (hheld.trans hrd)
  | build rr b b' a _ => exact hv.frame rfl rfl rfl rfl rfl fun rd hrd => Or.inl (hheld.trans hrd)
  | certMissing rr reply _ => exact hv.frame rfl rfl rfl rfl rfl fun rd => started rr rd rfl
  | due rr reply res _ _ => exact hv.frame rfl rfl rfl rfl rfl fun rd => started rr rd rfl
  | provision rr call apc apc' w reply _ =>
    refine hv.frame rfl rfl rfl rfl rfl ?_
    intro rd hrd
    left
    cases apc' with
    | done result =>
      cases result with
      | ok issued => exact hheld.trans hrd
      | error m => cases hrd
    | _ => exact hheld.trans hrd
  | store rr view p hr _ _ =>
    have hsome : held s .renewal = some rr.toReading := hheld
    have hver : p.version = rr.version := congrArg Reading.version hr
    refine ⟨hv.onDisk, ?_, ?_, hv.reading, hv.building, ?_⟩
    · intro q hq
      rcases List.mem_cons.mp hq with rfl | hq
      · rw [hver]
        exact hv.holding .renewal _ hsome
      · exact hv.logged q hq
    · intro w rd hw
      cases w with
      | main => cases hw
      | reload => exact hv.holding .reload rd hw
      | renewal => cases hw
    · obtain ⟨q, hq, hle⟩ := hv.seen
      exact ⟨q, List.mem_cons_of_mem _ hq, hle⟩

theorem versions_step {s t : ProxyServer.State H} {e : ProxyServer.Event} (hs : Settled s)
    (hi : Increasing s e) (hv : Versions s) (h : Step s e t) : Versions t := by
  cases h with
  | writeConfig v =>
    have hlt := hi v rfl
    have hk : ∀ old, Known s old → Known { s with file := v, history := v :: s.history } old := by
      rintro old ⟨hm, heq | hold⟩
      · refine ⟨List.mem_cons_of_mem _ hm, Or.inr ?_⟩
        rw [heq]
        exact hlt
      · exact ⟨List.mem_cons_of_mem _ hm, Or.inr (hold.trans hlt)⟩
    refine ⟨List.mem_cons_self, ?_, ?_, ?_, hv.building, hv.seen⟩
    · intro p hp
      exact hk _ (hv.logged p hp)
    · intro w r hw
      refine hk _ (hv.holding w r ?_)
      cases w <;> exact hw
    · intro m hm
      have hle := hv.reading m hm
      have hlt' : s.file.mtime < v.mtime := hlt
      show m ≤ v.mtime
      omega
  | main r eff he =>
    rcases settled_main hs he with ⟨m, rfl⟩ | ⟨boot, redirect, _, rfl⟩
    · exact hv.frame rfl rfl rfl rfl rfl fun _ => Or.inl
    · exact hv.frame rfl rfl rfl rfl rfl fun _ hrd => by cases hrd
  | reload r pc eff hpc he => exact versions_reload hv hpc (reloadStep_cases he)
  | renewal r pc eff hpc he => exact versions_renewal hv hpc (renewalStep_cases he)
  | _ => exact hv.frame rfl rfl rfl rfl rfl fun _ => Or.inl

inductive TickOutcome where
  | skipped
  | stored
  | failed
  deriving DecidableEq, Repr

/-- How a step ends the tick of the reload loop, if it does: the modification time is not
newer, a state is stored, or one of its calls failed. -/
def tickOutcome (s : ProxyServer.State H) : ProxyServer.Event → Option TickOutcome
  | .reload r =>
    match s.reload.bind fun pc => reloadStep s pc r with
    | some (.store _ _) => some .stored
    | some (.goto .tick) =>
      match s.reload, r with
      | some .stat, .call (.fs .ok) => some .skipped
      | _, _ => some .failed
    | _ => none
  | _ => none

/-- The step ends a tick that went well. -/
def TickLoads (s : ProxyServer.State H) (e : ProxyServer.Event) : Prop :=
  tickOutcome s e = some .skipped ∨ tickOutcome s e = some .stored

def NoWrite (_ : ProxyServer.State H) (e : ProxyServer.Event) : Prop := ∀ v, e ≠ .writeConfig v

def Current (s : ProxyServer.State H) : Prop := ∃ p, s.published = some p ∧ p.version = s.file

/-- Whenever a tick of the reload loop began, nothing has been written since, and a tick has
gone well since, the published state is built from the file as it is. -/
def FreshAfterTick (tr : Trace H) (u : ProxyServer.State H) : Prop :=
  ∀ before t after, tr = before ++ (t, .reload .proceed) :: after → t.reload = some .tick →
    Obeys NoWrite after → (∃ p ∈ after, TickLoads p.1 p.2) → Current u

def ReadsCurrent (s : ProxyServer.State H) : Prop :=
  ∀ m r b, s.reload = some (.building m r b) → r.version = s.file

theorem file_of_noWrite {s t : ProxyServer.State H} {e : ProxyServer.Event} (hw : NoWrite s e)
    (h : Step s e t) : t.file = s.file := by
  cases h with
  | writeConfig v => exact absurd rfl (hw v)
  | main r eff he => cases eff <;> rfl
  | reload r pc eff hpc he => cases eff <;> rfl
  | renewal r pc eff hpc he => cases eff <;> rfl
  | _ => rfl

theorem readsCurrent_fire {s t : ProxyServer.State H} (hp : s.reload = some .tick)
    (h : Step s (.reload .proceed) t) : ReadsCurrent t := by
  intro m r b hb
  cases h with
  | reload _ pc eff hpc he =>
    rw [hp] at hpc
    cases hpc
    cases he
    cases hb

theorem readsCurrent_step {s t : ProxyServer.State H} {e : ProxyServer.Event} (hs : Settled s)
    (hw : NoWrite s e) (hr : ReadsCurrent s) (h : Step s e t) : ReadsCurrent t := by
  cases h with
  | writeConfig v => exact absurd rfl (hw v)
  | main r eff he =>
    rcases settled_main hs he with ⟨m, rfl⟩ | ⟨boot, redirect, _, rfl⟩
    · exact hr
    · exact hr
  | renewal r pc eff hpc he => cases eff <;> exact hr
  | reload r pc eff hpc he =>
    intro m vr b hb
    cases reloadStep_cases he with
    | readOk mtime reply vr' hver _ => cases hb; exact hver
    | build mtime vr' b' b'' a _ => cases hb; exact hr _ _ _ hpc
    | _ => cases hb
  | _ => exact hr

theorem tickLoads_cases {s t : ProxyServer.State H} {e : ProxyServer.Event}
    (hl : TickLoads s e) (h : Step s e t) :
    t.file = s.file ∧
    ((t.log = s.log ∧ s.file.mtime ≤ s.lastMtime) ∨
      ∃ m vr b p, s.reload = some (.building m vr b) ∧ t.log = p :: s.log ∧
        p.version = vr.version) := by
  cases h with
  | reload r pc eff hpc he =>
    cases reloadStep_cases he with
    | skip hold => exact ⟨rfl, Or.inl ⟨rfl, hold⟩⟩
    | store mtime vr view p hr _ _ =>
      exact ⟨rfl, Or.inr ⟨mtime, vr, _, p, hpc, rfl, congrArg Reading.version hr⟩⟩
    | _ => simp [TickLoads, tickOutcome, hpc, he] at hl
  | _ => rcases hl with hl | hl <;> cases hl

theorem current_of_seen {s : ProxyServer.State H} (hv : Versions s) (ho : InOrder s)
    (hseen : ∃ p ∈ s.log, s.file.mtime ≤ p.version.mtime) : Current s := by
  obtain ⟨p, hp, hle⟩ := hseen
  cases hlog : s.log with
  | nil => rw [hlog] at hp; cases hp
  | cons q rest =>
    have hord : Ordered (q.version.mtime :: rest.map fun p => p.version.mtime) := by
      simpa [InOrder, mtimes, hlog] using ho
    have hpq : p.version.mtime ≤ q.version.mtime := by
      apply hord.le_head
      rw [hlog] at hp
      exact List.mem_map_of_mem (f := fun p => p.version.mtime) hp
    refine ⟨q, by simp [State.published, hlog], ?_⟩
    rcases (hv.logged q (by simp [hlog])).2 with heq | hlt
    · exact heq
    · omega

theorem current_of_tickLoads {s t : ProxyServer.State H} {e : ProxyServer.Event}
    (hv : Versions s) (hvt : Versions t) (hot : InOrder t) (hr : ReadsCurrent s)
    (hl : TickLoads s e) (h : Step s e t) : Current t := by
  apply current_of_seen hvt hot
  obtain ⟨hf, ⟨hlog, hle⟩ | ⟨m, vr, b, p, hpc, hlog, hver⟩⟩ := tickLoads_cases hl h
  · obtain ⟨p, hp, hseen⟩ := hv.seen
    rw [hf, hlog]
    exact ⟨p, hp, hle.trans hseen⟩
  · refine ⟨p, by simp [hlog], ?_⟩
    rw [hf, hver, hr m vr b hpc]

theorem current_step {s t : ProxyServer.State H} {e : ProxyServer.Event} (hvt : Versions t)
    (hot : InOrder t) (hw : NoWrite s e) (hc : Current s) (h : Step s e t) : Current t := by
  have hf := file_of_noWrite hw h
  obtain ⟨p, hp, hver⟩ := hc
  apply current_of_seen hvt hot
  refine ⟨p, ?_, by rw [hf, hver]⟩
  rw [step_log h]
  exact List.mem_append_right _ (List.mem_of_mem_head? hp)

theorem fresh_of_notOvertaken {s u : ProxyServer.State H} {tr : Trace H} (hs : LoopsStarted s)
    (h : Run ProxyServer.next s tr u) (hinc : Obeys Increasing tr)
    (hno : Obeys NotOvertaken tr) : FreshAfterTick tr u := by
  intro before t after htr htick hquiet hloads
  subst htr
  obtain ⟨hbefore, y, hfire, hafter⟩ := h.cut
  obtain ⟨hincb, hincr⟩ := obeys_append.mp hinc
  obtain ⟨hnob, hnor⟩ := obeys_append.mp hno
  obtain ⟨hincf, hinca⟩ := obeys_cons.mp hincr
  obtain ⟨hnof, hnoa⟩ := obeys_cons.mp hnor
  have hall : ∀ {pre v}, Run ProxyServer.next s pre v → Obeys Increasing pre →
      Settled v ∧ Versions v := by
    intro pre v hrun hi
    exact hrun.invariant_of (I := fun s => Settled s ∧ Versions s) (C := Increasing)
      (fun _ _ _ hst hc hn => ⟨settled_step hst.1 (step_of_next hn),
        versions_step hst.1 hc hst.2 (step_of_next hn)⟩) ⟨hs.settled, hs.versions⟩ hi
  -- from the start of the tick on, whatever the loop holds it has read in the quiet time
  have hstart : Run ProxyServer.next s (before ++ [(t, .reload .proceed)]) y :=
    hbefore.snoc hfire
  have hreads : ReadsCurrent y := readsCurrent_fire htick (step_of_next hfire)
  clear hfire htick
  suffices hind : ReadsCurrent u ∧ ((∃ p ∈ after, TickLoads p.1 p.2) → Current u) from
    hind.2 hloads
  clear hloads h hinc hno hincr hnor
  induction hafter with
  | nil => exact ⟨hreads, by simp⟩
  | @snoc tr v e z hrun hn ih =>
    obtain ⟨hq, hqe⟩ := obeys_append.mp hquiet
    obtain ⟨hi, hie⟩ := obeys_append.mp hinca
    obtain ⟨ho, hoe⟩ := obeys_append.mp hnoa
    obtain ⟨hrv, hcv⟩ := ih hq hi ho
    have hstep := step_of_next hn
    have hpre : Run ProxyServer.next s (before ++ [(t, .reload .proceed)] ++ tr) v :=
      hstart.trans hrun
    have hprei : Obeys Increasing (before ++ [(t, .reload .proceed)] ++ tr) := by
      simp [hincb, hincf, hi]
    have hfull := hpre.snoc hn
    have hfulli : Obeys Increasing (before ++ [(t, .reload .proceed)] ++ tr ++ [(v, e)]) :=
      obeys_append.mpr ⟨hprei, hie⟩
    have hfullo : Obeys NotOvertaken (before ++ [(t, .reload .proceed)] ++ tr ++ [(v, e)]) := by
      simp only [obeys_append]
      exact ⟨⟨⟨hnob, by simpa using hnof⟩, ho⟩, hoe⟩
    have hv := hall hpre hprei
    have hz := hall hfull hfulli
    have hzo : InOrder z := (inOrder_iff hs hfull hfulli).mpr hfullo
    have hnw : NoWrite v e := by simpa using hqe
    refine ⟨readsCurrent_step hv.1 hnw hrv hstep, ?_⟩
    rintro ⟨p, hp, hl⟩
    rcases List.mem_append.mp hp with hp | hp
    · exact current_step hz.2 hzo hnw (hcv ⟨p, hp, hl⟩) hstep
    · rw [List.mem_singleton.mp hp] at hl
      exact current_of_tickLoads hv.2 hz.2 hzo hrv hl hstep

/-- With increasing modification times, and from the moment the loops have been started: no
state is ever stored after one from a newer version, and after a quiet tick that went well the
published state is current, exactly when no loop stores after it was overtaken. -/
theorem published_in_order {s u : ProxyServer.State H} {tr : Trace H} (hs : LoopsStarted s)
    (h : Run ProxyServer.next s tr u) (hinc : Obeys Increasing tr) :
    (InOrder u ∧ FreshAfterTick tr u) ↔ Obeys NotOvertaken tr := by
  have hiff := inOrder_iff hs h hinc
  constructor
  · intro hord
    exact hiff.mp hord.1
  · intro hno
    exact ⟨hiff.mpr hno, fresh_of_notOvertaken hs h hinc hno⟩

theorem sampleServing_started : LoopsStarted sampleServing where
  main := Or.inl rfl
  initial := ⟨_, rfl, rfl, rfl, List.mem_cons_self, Or.inl rfl⟩
  onDisk := List.mem_cons_self
  reload := rfl
  renewal := Or.inr ⟨rfl, rfl⟩

theorem published_in_order_reloaded : ∃ tr u, Run ProxyServer.next sampleServing tr u ∧
    mtimes u = [2, 1] ∧ ((InOrder u ∧ FreshAfterTick tr u) ↔ Obeys NotOvertaken tr) := by
  obtain ⟨u, hr, hm⟩ := run_of_view ProxyServer.next sampleServing
    (.writeConfig ⟨2, "127.0.0.1:3001"⟩ :: sampleReload) mtimes [2, 1] rfl
  have hinc : Obeys Increasing (traceOf ProxyServer.next sampleServing
      (.writeConfig ⟨2, "127.0.0.1:3001"⟩ :: sampleReload)) := obeys_of_all rfl
  exact ⟨_, u, hr, hm, published_in_order sampleServing_started hr hinc⟩

/-- A renewal reads the first version, a reload publishes the second, and then the renewal
publishes the first again. -/
theorem renewal_overtaken : ¬ ∀ (H : Host) (s u : ProxyServer.State H) (tr : Trace H),
    LoopsStarted s → Run ProxyServer.next s tr u → Obeys Increasing tr →
      InOrder u ∧ FreshAfterTick tr u := by
  intro hall
  obtain ⟨u, hr, hm⟩ := run_of_view ProxyServer.next sampleServing
    (sampleRenewal ++ .writeConfig ⟨2, "127.0.0.1:3001"⟩ :: sampleReload ++
      sampleBuild.map .renewal) mtimes [1, 2, 1] rfl
  have hord := (hall _ _ u _ sampleServing_started hr (obeys_of_all rfl)).1
  rw [InOrder, hm] at hord
  exact absurd hord (by unfold Ordered; decide)

end PublicationOrder
