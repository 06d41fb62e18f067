import Mathlib.Data.Prod.Lex
import Mathlib.Order.WellFounded
import PrismProxy.ProvisionAgreement

/-! # When provisioning returns

A call is run against everything an ACME server can answer to its polls. Everything else is
free: the other replies, how long a reply or a sleep takes, and what the rest of the process
does to the files and the store meanwhile. -/
namespace ProvisionTermination

open TransitionRuns CertificateCache AcmeProvision
open ProvisionAgreement (wakeOf direct)

/-- The `k`-th answers to the poll of the order and to the look for the certificate. -/
structure Server where
  orders : ℕ → Except String OrderStatus
  certs : ℕ → Except String (Option String)

structure State where
  world : World
  pc : Pc
  polls : ℕ
  looks : ℕ

def start (world : World) : State := ⟨world, .createDir, 0, 0⟩

/-- What the server answers, if it is polled. -/
def Server.answer (server : Server) (s : State) : Option Reply :=
  match s.pc with
  | .refresh _ => some (.orderStatus (server.orders s.polls))
  | .certificate _ _ => some (.certificate (server.certs s.looks))
  | _ => none

def pollsOf : Pc → ℕ
  | .refresh _ => 1
  | _ => 0

def looksOf : Pc → ℕ
  | .certificate _ _ => 1
  | _ => 0

/-- One step of the call, in the world as it is by then and with the reply it gets. -/
def next (server : Server) (call : Call) (s : State) (e : World × Reply) : Option State :=
  if s.world.instant ≤ e.1.instant then
    (step call e.1 s.pc ((server.answer s).getD e.2)).map fun (w, pc) =>
      ⟨w, pc, s.polls + pollsOf s.pc, s.looks + looksOf s.pc⟩
  else none

/-- The call returns after a bounded number of polls: no run goes on for ever, and none stops
before the call has returned. -/
structure Terminates (server : Server) (call : Call) : Prop where
  polls : ∃ n, ∀ w tr u, Run (next server call) (start w) tr u → u.polls + u.looks ≤ n
  ends : ∀ w, ¬ Endless (next server call) (start w)
  live : ∀ w tr u, Run (next server call) (start w) tr u →
    (∃ result, u.pc = .done result) ∨ ∃ e t, next server call u e = some t

def Undecided (answer : Except String OrderStatus) : Prop :=
  ∃ st, answer = .ok st ∧ st ≠ .ready ∧ st ≠ .invalid

/-- The order becomes ready while it is polled for: the deadline leaves time for 41 polls. -/
def Server.Readies (server : Server) : Prop :=
  ∃ k ≤ 40, server.orders k = .ok .ready ∧ ∀ j < k, Undecided (server.orders j)

/-- Some look for the certificate is answered with one, or with an error. -/
def Server.Decides (server : Server) : Prop := ∃ k, server.certs k ≠ .ok none

/-- `polls` polls have been made since `since`, each a `period` or more after the one before, and
so will be the one due at `due`. -/
def Paced (since period polls due : ℕ) : Prop := since + period * (polls + 1) ≤ due

theorem Paced.first (since period : ℕ) : Paced since period 0 (since + period) := by
  simp [Paced]

theorem Paced.later {since period polls due now : ℕ} (h : Paced since period polls due)
    (hn : due ≤ now) : Paced since period polls now := le_trans h hn

theorem Paced.again {since period polls now : ℕ} (h : Paced since period polls now) :
    Paced since period (polls + 1) (now + period) := by
  unfold Paced at h ⊢
  rw [Nat.mul_add, Nat.mul_one, ← Nat.add_assoc]
  exact Nat.add_le_add_right h period

theorem Paced.room {since period polls now budget : ℕ} (h : Paced since period polls now)
    (hb : now ≤ since + budget) : period * (polls + 1) ≤ budget := by
  unfold Paced at h
  omega

/-- At the poll of the order, the next poll being due at `due`. -/
structure Ordering (server : Server) (polls looks deadline due : ℕ) : Prop where
  undecided : ∀ j < polls, Undecided (server.orders j)
  below : polls ≤ 40
  looks : looks = 0
  paced : ∃ since, deadline = since + secs 120 ∧ Paced since (secs 3) polls due

structure Looking (server : Server) (call : Call) (limit polls looks : ℕ) (deadline : Option ℕ)
    (due : ℕ) : Prop where
  ready : server.Readies
  polls : polls ≤ 41
  silent : ∀ j < looks, server.certs j = .ok none
  below : looks < limit
  paced : call.variant = .provisionWithStore →
    ∃ since, deadline = some (since + secs 60) ∧ Paced since (secs 2) looks due

structure Issuing (server : Server) (polls looks : ℕ) : Prop where
  ready : server.Readies
  polls : polls ≤ 41
  looks : looks = 0

def Within (limit polls looks : ℕ) : Prop := polls ≤ 41 ∧ looks ≤ limit

def Counted (server : Server) (call : Call) (limit : ℕ) (s : State) : Prop :=
  match s.pc with
  | .createDir | .checkLock | .createLock | .account _ _ | .newOrder _ | .authorizations
  | .collect _ _ _ | .bindServer _ _ _ | .setReady _ => s.polls = 0 ∧ s.looks = 0
  | .sleepOrder deadline wake => Ordering server s.polls s.looks deadline wake
  | .refresh deadline => Ordering server s.polls s.looks deadline s.world.instant
  | .certParams _ | .generateKey | .serializeCsr _ | .finalize _ =>
    Issuing server s.polls s.looks
  | .sleepCert _ deadline wake => Looking server call limit s.polls s.looks deadline wake
  | .certificate _ deadline =>
    Looking server call limit s.polls s.looks deadline s.world.instant
  | _ => Within limit s.polls s.looks

/-- What bounds the looks: after one without a certificate there is another only below the
limit. -/
structure Limits (server : Server) (call : Call) (limit : ℕ) : Prop where
  pos : server.Readies → 0 < limit
  again : ∀ looks, server.Readies → (∀ j ≤ looks, server.certs j = .ok none) →
    (call.variant = .provisionWithStore → secs 2 * (looks + 1) ≤ secs 60) → looks + 1 < limit

variable {server : Server} {call : Call} {limit : ℕ}

theorem Counted.within {s : State} (h : Counted server call limit s) :
    Within limit (s.polls + pollsOf s.pc) (s.looks + looksOf s.pc) := by
  obtain ⟨w, pc, polls, looks⟩ := s
  cases pc with
  | createDir | checkLock | createLock | account | newOrder | authorizations | collect
  | bindServer | setReady =>
    obtain ⟨rfl, rfl⟩ := h
    simp [Within, pollsOf, looksOf]
  | sleepOrder deadline wake =>
    obtain ⟨_, hb, rfl, _⟩ := h
    exact ⟨Nat.le_succ_of_le hb, Nat.zero_le limit⟩
  | refresh deadline =>
    obtain ⟨_, hb, rfl, _⟩ := h
    exact ⟨Nat.succ_le_succ hb, Nat.zero_le limit⟩
  | certParams | generateKey | serializeCsr | finalize =>
    obtain ⟨_, hp, rfl⟩ := h
    exact ⟨hp, Nat.zero_le limit⟩
  | sleepCert keyPem deadline wake =>
    obtain ⟨_, hp, _, hb, _⟩ := h
    exact ⟨hp, hb.le⟩
  | certificate keyPem deadline =>
    obtain ⟨_, hp, _, hb, _⟩ := h
    exact ⟨hp, hb⟩
  | writeCertTmp | writeKeyTmp | renameCert | renameKey | writeIssuedAt | unlock | removeCertTmp
  | removeKeyTmp | clearStore | done => exact h

theorem Counted.later {w w' : World} {pc : Pc} {polls looks : ℕ}
    (h : Counted server call limit ⟨w, pc, polls, looks⟩) (hi : w.instant ≤ w'.instant) :
    Counted server call limit ⟨w', pc, polls, looks⟩ := by
  cases pc with
  | refresh deadline =>
    obtain ⟨hu, hb, hl, since, hd, hp⟩ := h
    exact ⟨hu, hb, hl, since, hd, hp.later hi⟩
  | certificate keyPem deadline =>
    obtain ⟨hr, hp, hs, hb, ht⟩ := h
    refine ⟨hr, hp, hs, hb, ?_⟩
    intro hv
    obtain ⟨since, hd, hpaced⟩ := ht hv
    exact ⟨since, hd, hpaced.later hi⟩
  | _ => exact h

theorem pollCert_wake {w : World} {keyPem : String} {deadline : Option ℕ} {wake : ℕ}
    (h : pollCert call w keyPem deadline = (w, .sleepCert keyPem deadline wake))
    (hv : call.variant = .provisionWithStore) : wake = w.instant + secs 2 := by
  simp only [pollCert, hv, Prod.mk.injEq, Pc.sleepCert.injEq, true_and] at h
  exact h.symm

theorem Ordering.again {polls looks deadline now : ℕ}
    (h : Ordering server polls looks deadline now) (hu : Undecided (server.orders polls))
    (hn : now ≤ deadline) : Ordering server (polls + 1) looks deadline (now + secs 3) := by
  obtain ⟨hundecided, _, hl, since, rfl, hp⟩ := h
  have hroom := hp.room hn
  refine ⟨?_, ?_, hl, since, rfl, hp.again⟩
  · intro j hj
    rcases Nat.lt_succ_iff_lt_or_eq.mp hj with hlt | rfl
    · exact hundecided j hlt
    · exact hu
  · unfold secs at hroom
    omega

theorem Looking.again {polls looks now wake : ℕ} {deadline : Option ℕ}
    (h : Looking server call limit polls looks deadline now) (hl : Limits server call limit)
    (hnone : server.certs looks = .ok none) (hn : ∀ d, deadline = some d → now ≤ d)
    (hw : call.variant = .provisionWithStore → wake = now + secs 2) :
    Looking server call limit polls (looks + 1) deadline wake := by
  obtain ⟨hr, hp, hs, _, ht⟩ := h
  have hsilent : ∀ j ≤ looks, server.certs j = .ok none := by
    intro j hj
    rcases Nat.lt_or_eq_of_le hj with hlt | rfl
    · exact hs j hlt
    · exact hnone
  refine ⟨hr, hp, fun j hj => hsilent j (Nat.lt_succ_iff.mp hj), hl.again looks hr hsilent ?_, ?_⟩
  · intro hv
    obtain ⟨since, hd, hpaced⟩ := ht hv
    exact hpaced.room (hn _ hd)
  · intro hv
    obtain ⟨since, hd, hpaced⟩ := ht hv
    rw [hw hv]
    exact ⟨since, hd, hpaced.again⟩

theorem order_answered {w : World} {deadline polls looks : ℕ} {res : Except String OrderStatus}
    (h : ∀ x, server.answer ⟨w, .refresh deadline, polls, looks⟩ = some x →
      Reply.orderStatus res = x) : server.orders polls = res := by
  have hanswer : Reply.orderStatus res = .orderStatus (server.orders polls) := h _ rfl
  injection hanswer with hanswer
  exact hanswer.symm

theorem cert_answered {w : World} {keyPem : String} {deadline : Option ℕ} {polls looks : ℕ}
    {res : Except String (Option String)}
    (h : ∀ x, server.answer ⟨w, .certificate keyPem deadline, polls, looks⟩ = some x →
      Reply.certificate res = x) : server.certs looks = res := by
  have hanswer : Reply.certificate res = .certificate (server.certs looks) := h _ rfl
  injection hanswer with hanswer
  exact hanswer.symm

theorem counted_step {w w' : World} {pc pc' : Pc} {polls looks : ℕ} {r : Reply}
    (hl : Limits server call limit) (h : Counted server call limit ⟨w, pc, polls, looks⟩)
    (hr : ∀ x, server.answer ⟨w, pc, polls, looks⟩ = some x → r = x)
    (hs : ProvisionStep call w pc r (w', pc')) :
    Counted server call limit ⟨w', pc', polls + pollsOf pc, looks + looksOf pc⟩ := by
  have hwithin := h.within
  cases hs with
  | allNotified =>
    obtain ⟨rfl, rfl⟩ := h
    exact ⟨by simp [pollsOf], by simp [pollsOf], rfl, w.instant, rfl, .first ..⟩
  | orderDue deadline wake due =>
    obtain ⟨hu, hb, hlook, since, hd, hp⟩ := h
    exact ⟨hu, hb, hlook, since, hd, hp.later due⟩
  | orderReady deadline =>
    obtain ⟨hu, hb, hlook, _⟩ := h
    exact ⟨⟨polls, hb, order_answered hr, hu⟩, hwithin.1, hlook⟩
  | orderPending deadline st undecided inTime =>
    have hordering : Ordering server polls looks deadline w.instant := h
    exact hordering.again ⟨st, order_answered hr, undecided⟩ inTime
  | finalized keyPem wake poll =>
    obtain ⟨hready, hp, rfl⟩ := h
    refine ⟨hready, hp, by simp [looksOf], hl.pos hready, ?_⟩
    intro hv
    rw [pollCert_wake poll hv]
    exact ⟨w.instant, by simp [certDeadline, hv], .first ..⟩
  | certDue keyPem deadline wake due =>
    obtain ⟨hready, hp, hsilent, hb, ht⟩ := h
    refine ⟨hready, hp, hsilent, hb, ?_⟩
    intro hv
    obtain ⟨since, hd, hpaced⟩ := ht hv
    exact ⟨since, hd, hpaced.later due⟩
  | certPending keyPem deadline wake inTime poll =>
    have hlooking : Looking server call limit polls looks deadline w.instant := h
    exact hlooking.again hl (cert_answered hr) inTime (pollCert_wake poll)
  | dirMade | unlocked | lockMade | accountMade | orderMade | orderRead | answerOwn | answerShared
  | collectedOwn | collectedShared | bound | notified | paramsMade | keyMade | csrMade => exact h
  | noDir | locked | noLock | failed | certIssued | certTmpWritten | certTmpFailed | keyTmpWritten
  | keyTmpFailed | certRenamed | certKept | keyRenamed | keyKept | issuedAtWritten
  | issuedAtFailed | gaveUp | certTmpRemoved | storeCleared => exact hwithin
  | succeeded | keyTmpRemoved =>
    unfold finish
    split <;> exact hwithin

def stage : Pc → ℕ
  | .createDir => 24
  | .checkLock => 23
  | .createLock => 22
  | .account _ _ => 21
  | .newOrder _ => 20
  | .authorizations => 19
  | .collect _ _ _ => 18
  | .bindServer _ _ _ => 17
  | .setReady _ => 16
  | .sleepOrder _ _ | .refresh _ => 15
  | .certParams _ => 14
  | .generateKey => 13
  | .serializeCsr _ => 12
  | .finalize _ => 11
  | .sleepCert _ _ _ | .certificate _ _ => 10
  | .writeCertTmp _ _ => 9
  | .writeKeyTmp _ _ => 8
  | .renameCert _ _ => 7
  | .renameKey _ _ => 6
  | .writeIssuedAt _ _ => 5
  | .unlock _ => 4
  | .removeCertTmp _ => 3
  | .removeKeyTmp _ => 2
  | .clearStore _ => 1
  | .done _ => 0

def rounds (limit : ℕ) (s : State) : ℕ :=
  match s.pc with
  | .collect todo _ _ => todo.length
  | .setReady urls => urls.length
  | .sleepOrder _ _ => 2 * (41 - s.polls) + 1
  | .refresh _ => 2 * (41 - s.polls)
  | .sleepCert _ _ _ => 2 * (limit - s.looks) + 1
  | .certificate _ _ => 2 * (limit - s.looks)
  | _ => 0

def rank (limit : ℕ) (s : State) : ℕ × ℕ := (stage s.pc, rounds limit s)

theorem stage_orders {pc : Pc} (h : pc.orders = true)
    (result : Except ProxyConfig.ProxyError Issued) : stage (.unlock result) < stage pc := by
  cases pc <;> simp [Pc.orders, stage] at h ⊢

theorem rank_step {w w' : World} {pc pc' : Pc} {polls looks : ℕ} {r : Reply}
    (h : Counted server call limit ⟨w, pc, polls, looks⟩)
    (hs : ProvisionStep call w pc r (w', pc')) :
    Prod.Lex (· < ·) (· < ·) (rank limit ⟨w', pc', polls + pollsOf pc, looks + looksOf pc⟩)
      (rank limit ⟨w, pc, polls, looks⟩) := by
  cases hs with
  | failed _ _ message orders => exact .left _ _ (stage_orders orders _)
  | answerOwn | answerShared | notified =>
    refine .right _ ?_
    simp [rounds]
  | orderDue deadline wake due =>
    refine .right _ ?_
    simp [rounds, pollsOf]
  | orderPending deadline st undecided inTime =>
    obtain ⟨_, hb, _, _⟩ := h
    refine .right _ ?_
    simp only [rounds, pollsOf]
    simp only at hb
    omega
  | certDue keyPem deadline wake due =>
    refine .right _ ?_
    simp [rounds, looksOf]
  | certPending keyPem deadline wake inTime poll =>
    obtain ⟨_, _, _, hb, _⟩ := h
    refine .right _ ?_
    simp only [rounds, looksOf]
    simp only at hb
    omega
  | succeeded | keyTmpRemoved =>
    refine .left _ _ ?_
    unfold finish
    split <;> simp [stage]
  | _ => exact .left _ _ (by simp [stage])

theorem next_cases {s t : State} {e : World × Reply} (h : next server call s e = some t) :
    s.world.instant ≤ e.1.instant ∧
      ProvisionStep call e.1 s.pc ((server.answer s).getD e.2) (t.world, t.pc) ∧
      t = ⟨t.world, t.pc, s.polls + pollsOf s.pc, s.looks + looksOf s.pc⟩ := by
  obtain ⟨hi, h⟩ := Option.ite_none_right_eq_some.mp h
  obtain ⟨o, ho, rfl⟩ := Option.map_eq_some_iff.mp h
  exact ⟨hi, step_cases ho, rfl⟩

theorem counted_next {s t : State} {e : World × Reply} (hl : Limits server call limit)
    (h : Counted server call limit s) (hn : next server call s e = some t) :
    Counted server call limit t ∧ Prod.Lex (· < ·) (· < ·) (rank limit t) (rank limit s) := by
  obtain ⟨hi, hs, ht⟩ := next_cases hn
  obtain ⟨w, pc, polls, looks⟩ := s
  have hlater := h.later hi
  have hrank := rank_step hlater hs
  rw [ht]
  refine ⟨counted_step hl hlater ?_ hs, hrank⟩
  intro x hx
  have hanswer : server.answer ⟨w, pc, polls, looks⟩ = some x := hx
  rw [hanswer]
  rfl

theorem counted_start (w : World) : Counted server call limit (start w) := ⟨rfl, rfl⟩

theorem next_of_step {s : State} {e : World × Reply} {o : World × Pc}
    (hi : s.world.instant ≤ e.1.instant)
    (h : step call e.1 s.pc ((server.answer s).getD e.2) = some o) :
    next server call s e = some ⟨o.1, o.2, s.polls + pollsOf s.pc, s.looks + looksOf s.pc⟩ := by
  simp only [next, if_pos hi, h, Option.map_some]

def replyTo : Pc → Reply
  | .createDir | .account _ _ | .newOrder _ | .bindServer _ _ _ | .setReady (_ :: _)
  | .certParams _ | .serializeCsr _ | .finalize _ => .unit (.ok ())
  | .authorizations => .authorizations (.ok [])
  | .generateKey => .keyPair (.ok "")
  | .checkLock | .createLock | .writeCertTmp _ _ | .writeKeyTmp _ _ | .renameCert _ _
  | .renameKey _ _ | .writeIssuedAt _ _ | .unlock _ | .removeCertTmp _ | .removeKeyTmp _ =>
    .fs (.failed "denied")
  | _ => .proceed

def rested (s : State) : World :=
  { s.world with instant := max s.world.instant (wakeOf s.pc) }

theorem step_replies (server : Server) (call : Call) (s : State)
    (hd : ∀ result, s.pc ≠ .done result) :
    ∃ o, step call (rested s) s.pc ((server.answer s).getD (replyTo s.pc)) = some o := by
  obtain ⟨w, pc, polls, looks⟩ := s
  cases pc with
  | done result => exact absurd rfl (hd result)
  | collect todo challengesMap urls => cases todo <;> exact ⟨_, rfl⟩
  | setReady urls => cases urls <;> exact ⟨_, rfl⟩
  | sleepOrder deadline wake =>
    exact ⟨_, if_pos (Nat.le_max_right w.instant wake)⟩
  | sleepCert keyPem deadline wake =>
    exact ⟨_, if_pos (Nat.le_max_right w.instant wake)⟩
  | writeIssuedAt certPem keyPem =>
    obtain ⟨variant, tlsConfig⟩ := call
    cases variant <;> exact ⟨_, rfl⟩
  | _ => exact ⟨_, rfl⟩

theorem live (server : Server) (call : Call) (s : State) :
    (∃ result, s.pc = .done result) ∨ ∃ e t, next server call s e = some t := by
  by_cases hd : ∃ result, s.pc = .done result
  · exact Or.inl hd
  · obtain ⟨o, ho⟩ := step_replies server call s (not_exists.mp hd)
    have hi : s.world.instant ≤ (rested s).instant := Nat.le_max_left ..
    exact Or.inr ⟨(rested s, replyTo s.pc), _, next_of_step hi ho⟩

/-- In any run the order is polled at most 41 times, and the certificate looked for at most as
often as the limit says. -/
theorem polls_within (hl : Limits server call limit) {w : World}
    {tr : List (State × World × Reply)} {u : State}
    (h : Run (next server call) (start w) tr u) : Within limit u.polls u.looks := by
  have hc : Counted server call limit u :=
    h.invariant (fun t e v ht hn => (counted_next hl ht hn).1) (counted_start w)
  obtain ⟨hpolls, hlooks⟩ := hc.within
  exact ⟨by omega, by omega⟩

theorem terminates_of_limits (hl : Limits server call limit) : Terminates server call := by
  refine ⟨⟨41 + limit, ?_⟩, ?_, fun _ _ u _ => live server call u⟩
  · intro w tr u hr
    obtain ⟨hpolls, hlooks⟩ := polls_within hl hr
    omega
  · intro w
    have wf : WellFounded (Prod.Lex (· < · : ℕ → ℕ → Prop) (· < · : ℕ → ℕ → Prop)) :=
      WellFounded.prod_lex Nat.lt_wfRel.wf Nat.lt_wfRel.wf
    exact not_endless_of_rank wf (rank limit) (fun s e t hs hn => counted_next hl hs hn)
      (counted_start w)

theorem limits_store (hv : call.variant = .provisionWithStore) : Limits server call 31 := by
  refine ⟨fun _ => by omega, ?_⟩
  intro looks _ _ hroom
  have hbudget := hroom hv
  unfold secs at hbudget
  omega

theorem limits_decides {k : ℕ} (hk : server.certs k ≠ .ok none) :
    Limits server call (k + 1) := by
  refine ⟨fun _ => by omega, ?_⟩
  intro looks _ hsilent _
  have hlt : looks < k := by
    by_contra hle
    exact hk (hsilent k (by omega))
  omega

theorem limits_never (hr : ¬ server.Readies) : Limits server call 0 :=
  ⟨fun h => absurd h hr, fun _ h _ _ => absurd h hr⟩

/-- The loop of `provision` for the certificate. -/
def Waiting (s : State) : Prop :=
  (∃ keyPem wake, s.pc = .sleepCert keyPem none wake) ∨ ∃ keyPem, s.pc = .certificate keyPem none

theorem waiting_step {listen : String} (hv : call.variant = .provision listen)
    (hnone : ∀ k, server.certs k = .ok none) {s : State} (hs : Waiting s) :
    ∃ e t, next server call s e = some t ∧ Waiting t := by
  rcases hs with ⟨keyPem, wake, hp⟩ | ⟨keyPem, hp⟩
  · have hi : s.world.instant ≤ (rested s).instant := Nat.le_max_left ..
    have hwake : wake ≤ (rested s).instant := by
      simp only [rested, hp, wakeOf]
      exact Nat.le_max_right ..
    have hstep : step call (rested s) s.pc ((server.answer s).getD .proceed) =
        some (rested s, .certificate keyPem none) := by
      simp only [hp, Server.answer, Option.getD_none, step, if_pos hwake]
    exact ⟨(rested s, .proceed), _, next_of_step hi hstep, Or.inr ⟨keyPem, rfl⟩⟩
  · have hstep : step call s.world s.pc ((server.answer s).getD .proceed) =
        some (s.world, .sleepCert keyPem none (s.world.instant + secs 1)) := by
      simp only [hp, Server.answer, hnone, Option.getD_some, step, attempt, afterCertificate,
        pollCert, hv]
    exact ⟨(s.world, .proceed), _, next_of_step (le_refl _) hstep, Or.inl ⟨keyPem, _, rfl⟩⟩

def quiet : World := ⟨fun _ => none, noChallenges, none, 0, 0⟩

theorem afterRefresh_pending {w : World} {deadline : ℕ} {st : OrderStatus}
    (hu : st ≠ .ready ∧ st ≠ .invalid) (hn : w.instant ≤ deadline) :
    afterRefresh call w deadline st = (w, .sleepOrder deadline (w.instant + secs 3)) := by
  cases st with
  | ready => exact absurd rfl hu.1
  | invalid => exact absurd rfl hu.2
  | pending | processing | valid => simp only [afterRefresh, if_neg (Nat.not_lt.mpr hn)]

/-- Before and at the `k`-th poll, with no time lost. -/
def Resting (k : ℕ) (s : State) : Prop :=
  s.pc = .sleepOrder (secs 120) (secs (3 * (k + 1))) ∧ s.world.instant ≤ secs (3 * (k + 1)) ∧
    s.polls = k

def Polling (k : ℕ) (s : State) : Prop :=
  s.pc = .refresh (secs 120) ∧ s.world.instant = secs (3 * (k + 1)) ∧ s.polls = k

theorem resting_start (server : Server) (listen : String) (tlsConfig : ProxyConfig.TlsConfig) :
    ∃ tr s, Run (next server (direct listen tlsConfig)) (start quiet) tr s ∧ Resting 0 s := by
  let es : List (World × Reply) := [.unit (.ok ()), .fs .ok, .fs .ok, .unit (.ok ()),
    .unit (.ok ()), .authorizations (.ok []), .proceed, .unit (.ok ()), .proceed].map
      fun r => (quiet, r)
  obtain ⟨s, hr, hv⟩ := run_of_view (next server (direct listen tlsConfig)) (start quiet) es
    (fun s => (s.pc, s.world.instant, s.polls)) (.sleepOrder (secs 120) (secs 3), 0, 0) rfl
  simp only [Prod.mk.injEq] at hv
  obtain ⟨hp, hi, hpolls⟩ := hv
  exact ⟨_, s, hr, hp, by omega, hpolls⟩

theorem Resting.poll {k : ℕ} {s : State} (h : Resting k s) :
    ∃ e t, next server call s e = some t ∧ Polling k t := by
  obtain ⟨hp, hi, hpolls⟩ := h
  let w := { s.world with instant := secs (3 * (k + 1)) }
  have hstep : step call w s.pc ((server.answer s).getD .proceed) =
      some (w, .refresh (secs 120)) := by
    simp only [hp, Server.answer, Option.getD_none, step, w, le_refl, if_true]
  exact ⟨(w, .proceed), _, next_of_step hi hstep, rfl, rfl, by simp [hp, pollsOf, hpolls]⟩

theorem Polling.rest {k : ℕ} {s : State} (h : Polling k s) (hk : k + 1 ≤ 40)
    (hu : Undecided (server.orders k)) :
    ∃ e t, next server call s e = some t ∧ Resting (k + 1) t := by
  obtain ⟨hp, hi, hpolls⟩ := h
  obtain ⟨st, hst, hundecided⟩ := hu
  have hn : s.world.instant ≤ secs 120 := by
    rw [hi]
    unfold secs
    omega
  have hstep : step call s.world s.pc ((server.answer s).getD .proceed) =
      some (s.world, .sleepOrder (secs 120) (s.world.instant + secs 3)) := by
    simp only [hp, Server.answer, hpolls, hst, Option.getD_some, step, attempt,
      afterRefresh_pending hundecided hn]
  have hwake : s.world.instant + secs 3 = secs (3 * (k + 1 + 1)) := by
    rw [hi]
    unfold secs
    omega
  refine ⟨(s.world, .proceed), _, next_of_step (le_refl _) hstep, ?_, ?_, ?_⟩
  · exact congrArg (Pc.sleepOrder (secs 120)) hwake
  · exact (Nat.le_add_right _ _).trans_eq hwake
  · simp [hp, pollsOf, hpolls]

theorem polling_reached (listen : String) (tlsConfig : ProxyConfig.TlsConfig) {k : ℕ}
    (hk : k ≤ 40) (hu : ∀ j < k, Undecided (server.orders j)) :
    ∃ tr s, Run (next server (direct listen tlsConfig)) (start quiet) tr s ∧ Polling k s := by
  induction k with
  | zero =>
    obtain ⟨tr, s, hr, hs⟩ := resting_start server listen tlsConfig
    obtain ⟨e, t, hn, ht⟩ := hs.poll
    exact ⟨_, t, hr.snoc hn, ht⟩
  | succ k ih =>
    obtain ⟨tr, s, hr, hs⟩ := ih (by omega) fun j hj => hu j (by omega)
    obtain ⟨e, t, hn, ht⟩ := hs.rest hk (hu k (by omega))
    obtain ⟨e', u, hn', hu⟩ := ht.poll
    exact ⟨_, u, (hr.snoc hn).snoc hn', hu⟩

theorem waiting_reached {listen : String} {tlsConfig : ProxyConfig.TlsConfig} {k : ℕ} {s : State}
    (h : Polling k s) (hready : server.orders k = .ok .ready) :
    ∃ tr t, Run (next server (direct listen tlsConfig)) s tr t ∧ Waiting t := by
  obtain ⟨hp, _, hpolls⟩ := h
  let w := { s.world with responder := none }
  have hstep : step (direct listen tlsConfig) s.world s.pc ((server.answer s).getD .proceed) =
      some (w, .certParams tlsConfig.domains) := by
    simp only [hp, Server.answer, hpolls, hready, Option.getD_some, step, attempt, afterRefresh,
      dropServer, direct, w]
  have hissued : ∀ polls looks, ∃ tr t, Run (next server (direct listen tlsConfig))
      ⟨w, .certParams tlsConfig.domains, polls, looks⟩ tr t ∧ Waiting t := by
    intro polls looks
    have hparams : next server (direct listen tlsConfig)
      ⟨w, .certParams tlsConfig.domains, polls, looks⟩ (w, .unit (.ok ())) =
        some ⟨w, .generateKey, polls, looks⟩ :=
          next_of_step (o := (w, .generateKey)) (le_refl _) rfl
    have hkey : next server (direct listen tlsConfig) ⟨w, .generateKey, polls, looks⟩
      (w, .keyPair (.ok "")) = some ⟨w, .serializeCsr "", polls, looks⟩ :=
        next_of_step (o := (w, .serializeCsr "")) (le_refl _) rfl
    have hcsr : next server (direct listen tlsConfig) ⟨w, .serializeCsr "", polls, looks⟩
      (w, .unit (.ok ())) = some ⟨w, .finalize "", polls, looks⟩ :=
        next_of_step (o := (w, .finalize "")) (le_refl _) rfl
    have hfinal : next server (direct listen tlsConfig) ⟨w, .finalize "", polls, looks⟩
      (w, .unit (.ok ())) = some ⟨w, .sleepCert "" none (w.instant + secs 1), polls, looks⟩ :=
        next_of_step (o := (w, .sleepCert "" none (w.instant + secs 1))) (le_refl _) rfl
    exact ⟨_, _, .cons hparams (.cons hkey (.cons hcsr (.single hfinal))), Or.inl ⟨_, _, rfl⟩⟩
  obtain ⟨tr, t, hr, ht⟩ := hissued (s.polls + pollsOf s.pc) (s.looks + looksOf s.pc)
  exact ⟨_, t, .cons (next_of_step (e := (s.world, .proceed)) (le_refl _) hstep) hr, ht⟩

theorem provision_not_terminates (listen : String) (tlsConfig : ProxyConfig.TlsConfig)
    (hready : server.Readies) (hnone : ∀ k, server.certs k = .ok none) :
    ¬ Terminates server (direct listen tlsConfig) := by
  intro ht
  obtain ⟨k, hk, hready, hundecided⟩ := hready
  obtain ⟨tr, s, hr, hs⟩ := polling_reached listen tlsConfig hk hundecided
  obtain ⟨tr', t, hr', hwaiting⟩ := waiting_reached hs hready
  have hendless : Endless (next server (direct listen tlsConfig)) t :=
    endless_of_progress (fun _ hs => waiting_step rfl hnone hs) hwaiting
  exact ht.ends quiet ((hr.trans hr').endless hendless)

/-- `provision` has no deadline for the certificate, so it returns only if the server comes to a
decision or the order never becomes ready; the store variant always returns. -/
theorem terminates_iff (server : Server) (call : Call) : Terminates server call ↔
    call.variant = .provisionWithStore ∨ server.Decides ∨ ¬ server.Readies := by
  constructor
  · intro ht
    by_contra hno
    simp only [not_or, not_not] at hno
    obtain ⟨hv, hundecided, hready⟩ := hno
    have hnone : ∀ k, server.certs k = .ok none := by
      intro k
      by_contra hne
      exact hundecided ⟨k, hne⟩
    obtain ⟨variant, tlsConfig⟩ := call
    cases variant with
    | provisionWithStore => exact hv rfl
    | provision listen => exact provision_not_terminates listen tlsConfig hready hnone ht
  · rintro (hv | ⟨k, hk⟩ | hr)
    · exact terminates_of_limits (limits_store hv)
    · exact terminates_of_limits (limits_decides hk)
    · exact terminates_of_limits (limits_never hr)

/-- An order that is ready at once, and a certificate that never comes. -/
theorem provision_endless : ¬ ∀ (server : Server) (call : Call), Terminates server call := by
  intro hall
  let server : Server := ⟨fun _ => .ok .ready, fun _ => .ok none⟩
  have hready : server.Readies := by
    refine ⟨0, by omega, rfl, ?_⟩
    intro j hj
    exact absurd hj (Nat.not_lt_zero j)
  exact provision_not_terminates "0.0.0.0:80" ProvisionAgreement.sampleTls hready (fun _ => rfl)
    (hall server _)

end ProvisionTermination
