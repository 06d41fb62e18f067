import PrismProxy.HealthHysteresis
import PrismProxy.HttpMessage
import PrismProxy.TransitionRuns

/-! # How soon a health flag follows its upstream

One `upstream_health_loop` with a clock. A ping is a connect, a handshake and a request, the
first and the last under a timeout; the interval it waits on is late after a long ping and then
completes at once. Times are in milliseconds. -/
namespace HealthTiming

open TransitionRuns HistoryRuns HttpMessage ProxyHealthCheck
open HealthHysteresis (Unhealthy)

/-- The arguments of the loop; `hostParses`: the `http` crate takes the address as a header
value. -/
structure Loop where
  upstreamAddr : String
  hostParses : Bool
  interval : ℕ
  failThreshold : ℕ
  recoverThreshold : ℕ

/-- Both timeouts of `ping`. -/
def pingTimeout : ℕ := 5000

def pingRequest (addr : String) : Request := ⟨"GET", .origin "/health" none, [("host", addr)], []⟩

def isSuccess (status : ℕ) : Bool := 200 ≤ status && status < 300

inductive Await where
  | firstTick
  | tick
  | connect
  | handshake
  | send (req : Request)
  | turn (ok : Bool)

structure Ping where
  started : ℕ
  ok : Bool
  deriving DecidableEq, Repr

/-- `since` is when the loop came to its await, `due` when the interval completes next, `started`
when the newest ping started; `log` are the pings that are over, newest first. -/
structure State where
  now : ℕ
  due : ℕ
  await : Await
  since : ℕ
  started : ℕ
  healthy : Bool
  counters : Counters
  log : List Ping

def start (now : ℕ) : State := ⟨now, now, .firstTick, now, now, true, ⟨0, 0⟩, []⟩

inductive Event where
  | pass (ms : ℕ)
  | tick
  | connect (ok : Bool)
  | handshake (ok : Bool)
  | respond (status : Option ℕ)
  | elapsed
  | turn

def State.goto (s : State) (await : Await) : State := { s with await := await, since := s.now }

def State.ticked (s : State) (loop : Loop) (await : Await) : State :=
  { s.goto await with due := s.due + loop.interval }

def State.startPing (s : State) (loop : Loop) : State :=
  { s.ticked loop .connect with started := s.now }

def State.turned (s : State) (loop : Loop) (ok : Bool) : State :=
  let turn := afterPing loop.failThreshold loop.recoverThreshold ok (s.healthy, s.counters)
  { s.goto .tick with
    healthy := turn.1
    counters := turn.2
    log := ⟨s.started, ok⟩ :: s.log }

def next (loop : Loop) (s : State) : Event → Option State
  | .pass ms => some { s with now := s.now + ms }
  | .tick =>
    match s.await with
    | .firstTick => if s.due ≤ s.now then some (s.ticked loop .tick) else none
    | .tick => if s.due ≤ s.now then some (s.startPing loop) else none
    | _ => none
  | .connect ok =>
    match s.await with
    | .connect => some (s.goto (if ok then .handshake else .turn false))
    | _ => none
  | .handshake ok =>
    match s.await with
    | .handshake =>
      some (s.goto (if ok && loop.hostParses then .send (pingRequest loop.upstreamAddr)
        else .turn false))
    | _ => none
  | .respond status =>
    match s.await with
    | .send _ => some (s.goto (.turn (status.any isSuccess)))
    | _ => none
  | .elapsed =>
    match s.await with
    | .connect | .send _ =>
      if s.since + pingTimeout ≤ s.now then some (s.goto (.turn false)) else none
    | _ => none
  | .turn =>
    match s.await with
    | .turn ok => some (s.turned loop ok)
    | _ => none

def State.ready (s : State) : ℕ :=
  match s.await with
  | .firstTick | .tick => max s.since s.due
  | .connect | .send _ => s.since + pingTimeout
  | .handshake | .turn _ => s.since

/-- The loop goes on at most `slack` after it can. -/
def InTime (slack : ℕ) (s : State) : Event → Prop
  | .pass ms => s.now + ms ≤ s.ready + slack
  | _ => True

instance (slack : ℕ) (s : State) : ∀ e, Decidable (InTime slack s e)
  | .pass ms => inferInstanceAs (Decidable (s.now + ms ≤ s.ready + slack))
  | .tick | .connect _ | .handshake _ | .respond _ | .elapsed | .turn => isTrue trivial

/-- How the ping under way is decided, if it is. -/
def decides (loop : Loop) : Event → Option Bool
  | .connect ok => if ok then none else some false
  | .handshake ok => if ok && loop.hostParses then none else some false
  | .respond status => some (status.any isSuccess)
  | .elapsed => some false
  | .pass _ | .tick | .turn => none

/-- Whatever decides a ping after `since` decides it as `ok`. -/
def AnswersFrom (loop : Loop) (since : ℕ) (ok : Bool) (s : State) (e : Event) : Prop :=
  since < s.now → ∀ decided ∈ decides loop e, decided = ok

instance (loop : Loop) (since : ℕ) (ok : Bool) (s : State) (e : Event) :
    Decidable (AnswersFrom loop since ok s e) :=
  inferInstanceAs (Decidable (since < s.now → ∀ decided ∈ decides loop e, decided = ok))

def Await.waits : Await → Bool
  | .connect | .handshake | .send _ => true
  | _ => false

inductive Step (loop : Loop) (s : State) : Event → State → Prop where
  | pass (ms) : Step loop s (.pass ms) { s with now := s.now + ms }
  | skip (ha : s.await = .firstTick) (hd : s.due ≤ s.now) : Step loop s .tick (s.ticked loop .tick)
  | ping (ha : s.await = .tick) (hd : s.due ≤ s.now) : Step loop s .tick (s.startPing loop)
  | connected (ha : s.await = .connect) : Step loop s (.connect true) (s.goto .handshake)
  | sent (ha : s.await = .handshake) (hp : loop.hostParses = true) :
    Step loop s (.handshake true) (s.goto (.send (pingRequest loop.upstreamAddr)))
  | decided (e ok) (hd : decides loop e = some ok) (ha : s.await.waits = true) :
    Step loop s e (s.goto (.turn ok))
  | turned (ok) (ha : s.await = .turn ok) : Step loop s .turn (s.turned loop ok)

theorem step_of_next {loop : Loop} {s t : State} {e : Event} (h : next loop s e = some t) :
    Step loop s e t := by
  cases e with
  | pass ms =>
    cases h
    exact .pass ms
  | tick =>
    cases ha : s.await <;> simp only [next, ha, reduceCtorEq] at h <;>
      obtain ⟨hd, h⟩ := Option.ite_none_right_eq_some.mp h <;> cases h
    · exact .skip ha hd
    · exact .ping ha hd
  | connect ok =>
    cases ha : s.await <;> simp only [next, ha, reduceCtorEq] at h
    cases ok <;> cases h
    · exact .decided _ false rfl (by simp [ha, Await.waits])
    · exact .connected ha
  | handshake ok =>
    cases ha : s.await <;> simp only [next, ha, reduceCtorEq] at h
    cases h
    by_cases hp : (ok && loop.hostParses) = true
    · obtain ⟨rfl, hh⟩ := Bool.and_eq_true_iff.mp hp
      rw [if_pos hp]
      exact .sent ha hh
    · rw [if_neg hp]
      exact .decided _ false (by simp only [decides, if_neg hp]) (by simp [ha, Await.waits])
  | respond status =>
    cases ha : s.await <;> simp only [next, ha, reduceCtorEq] at h
    cases h
    exact .decided _ _ rfl (by simp [ha, Await.waits])
  | elapsed =>
    cases ha : s.await <;> simp only [next, ha, reduceCtorEq] at h <;>
      obtain ⟨_, h⟩ := Option.ite_none_right_eq_some.mp h <;> cases h <;>
      exact .decided _ false rfl (by simp [ha, Await.waits])
  | turn =>
    cases ha : s.await <;> simp only [next, ha, reduceCtorEq] at h
    cases h
    exact .turned _ ha

def lasting (slack : ℕ) : ℕ := 2 * pingTimeout + 4 * slack

def gap (loop : Loop) (slack : ℕ) : ℕ := max loop.interval (lasting slack) + slack

def Await.within (slack : ℕ) : Await → ℕ
  | .firstTick | .connect => 0
  | .handshake => pingTimeout + slack
  | .send _ => pingTimeout + 2 * slack
  | .turn _ => 2 * pingTimeout + 3 * slack
  | .tick => lasting slack

def Await.pinging : Await → Bool
  | .firstTick | .tick => false
  | _ => true

def State.starts (s : State) : List ℕ :=
  (if s.await.pinging then [s.started] else []) ++ s.log.map Ping.started

structure Paced (loop : Loop) (slack first : ℕ) (s : State) : Prop where
  newest : (s.starts ++ [first]).head? = some s.started
  spaced : Spaced (gap loop slack) (s.starts ++ [first])
  due : s.due ≤ s.started + loop.interval
  since : s.since ≤ s.started + s.await.within slack
  now : s.now ≤ s.ready + slack
  skipped : s.await = .firstTick → s.due = first ∧ s.started = first

variable {loop : Loop} {slack first : ℕ} {s t : State} {e : Event}

theorem start_paced (loop : Loop) (slack first : ℕ) : Paced loop slack first (start first) where
  newest := rfl
  spaced := List.isChain_singleton _
  due := Nat.le_add_right _ _
  since := Nat.le_add_right _ _
  now := by simp [start, State.ready]
  skipped := fun _ => ⟨rfl, rfl⟩

theorem Paced.recent (h : Paced loop slack first s) : s.now ≤ s.started + gap loop slack := by
  have hnow := h.now
  have hsince := h.since
  have hdue := h.due
  have hmax := Nat.le_max_left loop.interval (lasting slack)
  have hmax' := Nat.le_max_right loop.interval (lasting slack)
  have hlasting : lasting slack = 2 * pingTimeout + 4 * slack := rfl
  unfold gap
  cases ha : s.await <;> simp only [State.ready, ha, Await.within] at hnow hsince <;> omega

theorem Paced.goto (h : Paced loop slack first s) {await : Await}
    (hstarts : (s.goto await).starts = s.starts) (ha : await ≠ .firstTick)
    (hw : s.now ≤ s.started + await.within slack) : Paced loop slack first (s.goto await) where
  newest := by rw [hstarts]; exact h.newest
  spaced := by rw [hstarts]; exact h.spaced
  due := h.due
  since := hw
  now := by
    cases await <;> simp only [State.ready, State.goto] <;> omega
  skipped := fun heq => absurd heq ha

theorem paced_step (h : Paced loop slack first s) (hc : InTime slack s e)
    (hs : Step loop s e t) : Paced loop slack first t := by
  have hnow := h.now
  have hsince := h.since
  cases hs with
  | pass ms => exact ⟨h.newest, h.spaced, h.due, h.since, hc, h.skipped⟩
  | skip ha hd =>
    obtain ⟨hdue, hstarted⟩ := h.skipped ha
    have hstarts : (s.ticked loop .tick).starts = s.starts := by
      simp [State.starts, State.ticked, State.goto, Await.pinging, ha]
    refine ⟨?_, ?_, ?_, ?_, ?_, by intro heq; cases heq⟩
    · rw [hstarts]
      exact h.newest
    · rw [hstarts]
      exact h.spaced
    · simp only [State.ticked, State.goto]
      omega
    · simp only [State.ready, ha, Await.within] at hnow hsince
      simp only [State.ticked, State.goto, Await.within, lasting]
      omega
    · simp only [State.ready, State.ticked, State.goto]
      omega
  | ping ha hd =>
    have hrecent := h.recent
    have hstarts : (s.startPing loop).starts = s.now :: s.starts := by
      simp [State.starts, State.startPing, State.ticked, State.goto, Await.pinging, ha]
    refine ⟨?_, ?_, ?_, ?_, ?_, by intro heq; cases heq⟩
    · rw [hstarts]
      rfl
    · rw [hstarts, Spaced, List.cons_append, List.isChain_cons]
      refine ⟨?_, h.spaced⟩
      rw [h.newest]
      simpa using hrecent
    · simp only [State.startPing, State.ticked, State.goto]
      omega
    · exact Nat.le_add_right _ _
    · simp only [State.ready, State.startPing, State.ticked, State.goto]
      omega
  | connected ha | sent ha hp =>
    refine h.goto ?_ (by simp) ?_
    · simp [State.starts, State.goto, Await.pinging, ha]
    · simp only [State.ready, ha, Await.within] at hnow hsince ⊢
      omega
  | decided e ok hd ha =>
    refine h.goto ?_ (by simp) ?_
    · cases hp : s.await <;> simp only [hp, Await.waits, Bool.false_eq_true] at ha <;>
        simp [State.starts, State.goto, Await.pinging, hp]
    · cases hp : s.await <;> simp only [hp, Await.waits, Bool.false_eq_true] at ha <;>
        simp only [State.ready, hp, Await.within] at hnow hsince ⊢ <;> omega
  | turned ok ha =>
    have hstarts : (s.turned loop ok).starts = s.starts := by
      simp [State.starts, State.turned, State.goto, Await.pinging, ha]
    refine ⟨?_, ?_, h.due, ?_, ?_, by intro heq; cases heq⟩
    · rw [hstarts]
      exact h.newest
    · rw [hstarts]
      exact h.spaced
    · simp only [State.ready, ha, Await.within] at hnow hsince
      simp only [State.turned, State.goto, Await.within, lasting]
      omega
    · simp only [State.ready, State.turned, State.goto]
      omega

def State.outcomes (s : State) : List Bool := (s.log.map Ping.ok).reverse

theorem tracks_step (h : (s.healthy, s.counters) =
      afterPings loop.failThreshold loop.recoverThreshold s.outcomes) (hs : Step loop s e t) :
    (t.healthy, t.counters) =
      afterPings loop.failThreshold loop.recoverThreshold t.outcomes := by
  cases hs with
  | turned ok ha =>
    have hlog : (s.turned loop ok).outcomes = s.outcomes ++ [ok] := by
      simp [State.outcomes, State.turned]
    rw [hlog, afterPings_snoc, ← h]
    rfl
  | _ => exact h

structure Answered (since : ℕ) (ok : Bool) (s : State) : Prop where
  past : ∀ p ∈ s.log, since < p.started → p.ok = ok
  turn : ∀ decided, s.await = .turn decided → since < s.started → decided = ok
  started : s.started ≤ s.now

theorem answered_step {since : ℕ} {ok : Bool} (h : Answered since ok s)
    (hc : AnswersFrom loop since ok s e) (hs : Step loop s e t) : Answered since ok t := by
  cases hs with
  | pass ms => exact ⟨h.past, h.turn, Nat.le_add_right_of_le h.started⟩
  | skip ha hd => exact ⟨h.past, nofun, h.started⟩
  | ping ha hd => exact ⟨h.past, nofun, Nat.le_refl _⟩
  | connected ha => exact ⟨h.past, nofun, h.started⟩
  | sent ha hp => exact ⟨h.past, nofun, h.started⟩
  | decided e b hd ha =>
    refine ⟨h.past, ?_, h.started⟩
    intro decided hb hlate
    obtain rfl : b = decided := by simpa [State.goto] using hb
    exact hc (Nat.lt_of_lt_of_le hlate h.started) b hd
  | turned b ha =>
    refine ⟨?_, nofun, h.started⟩
    intro p hp hlate
    rcases List.mem_cons.mp hp with rfl | hp
    · exact h.turn b ha hlate
    · exact h.past p hp hlate

def Loop.threshold (loop : Loop) (ok : Bool) : ℕ :=
  if ok then loop.recoverThreshold else loop.failThreshold

structure Loop.Thresholds (loop : Loop) : Prop where
  fail : 0 < loop.failThreshold
  failBound : loop.failThreshold < 2 ^ 32
  recover : 0 < loop.recoverThreshold
  recoverBound : loop.recoverThreshold < 2 ^ 32

theorem Paced.enough (h : Paced loop slack first s) {since n : ℕ} (hf : first ≤ since)
    (hlate : since + (n + 1) * gap loop slack < s.now) :
    ∃ recent older, s.log = recent ++ older ∧ recent.length = n ∧
      ∀ p ∈ recent, since < p.started := by
  have hnewest : since + n * gap loop slack < s.started := by
    have hrecent := h.recent
    rw [Nat.succ_mul] at hlate
    omega
  obtain ⟨times, rest, htimes, hlen, hall⟩ := spaced_recent hf n h.spaced h.newest hnewest
  have split : ∀ ts, s.log.map Ping.started = ts ++ rest → n ≤ ts.length → (∀ t ∈ ts, since < t) →
      ∃ recent older, s.log = recent ++ older ∧ recent.length = n ∧
        ∀ p ∈ recent, since < p.started := by
    intro ts hmap hn hts
    refine ⟨s.log.take n, s.log.drop n, (List.take_append_drop n s.log).symm, ?_, ?_⟩
    · have hlog : s.log.length = ts.length + rest.length := by
        rw [← List.length_map (f := Ping.started), hmap, List.length_append]
      rw [List.length_take]
      omega
    · intro p hp
      have hmem : p.started ∈ (s.log.take n).map Ping.started := List.mem_map_of_mem hp
      rw [List.map_take, hmap, List.take_append_of_le_length hn] at hmem
      exact hts _ (List.mem_of_mem_take hmem)
  unfold State.starts at htimes
  by_cases hp : s.await.pinging
  · rw [if_pos hp] at htimes
    cases times with
    | nil => cases hlen
    | cons time times =>
      obtain ⟨_, hmap⟩ := List.cons_eq_cons.mp htimes
      refine split times hmap ?_ fun t ht => hall t (List.mem_cons_of_mem _ ht)
      rw [List.length_cons] at hlen
      omega
  · rw [if_neg hp, List.nil_append] at htimes
    exact split times htimes (by omega) hall

/-- What a run of the loop leaves: counters and flag are those of its outcomes, as for a loop of
the server; and once the pings since `since` have been answered alike for long enough, the flag
is what they were answered. -/
structure Follows (loop : Loop) (slack since : ℕ) (ok : Bool) (u : State) : Prop where
  own : (u.healthy, u.counters) =
    afterPings loop.failThreshold loop.recoverThreshold u.outcomes
  settled : since + (loop.threshold ok + 1) * gap loop slack < u.now → u.healthy = ok

theorem flag_of_endsRun (hb : loop.Thresholds) {ok : Bool} {pings : List Bool}
    (h : EndsRun ok (loop.threshold ok) pings) :
    (afterPings loop.failThreshold loop.recoverThreshold pings).1 = ok := by
  have hcounts := HealthHysteresis.counts_afterPings hb.fail hb.failBound hb.recover
    hb.recoverBound pings
  cases ok with
  | false =>
    rw [hcounts.flag]
    exact latched_of_set h
  | true =>
    rw [← Bool.not_eq_false, hcounts.flag]
    apply not_latched_of_reset _ h
    intro hfail
    cases endsRun_unique hb.recover hb.fail h hfail

theorem flag_follows (hb : loop.Thresholds) {since : ℕ} (hf : first ≤ since) (ok : Bool)
    {tr : List (State × Event)} {u : State} (h : Run (next loop) (start first) tr u)
    (htime : Obeys (InTime slack) tr) (hanswers : Obeys (AnswersFrom loop since ok) tr) :
    Follows loop slack since ok u := by
  have hpaced := h.invariant_of (I := Paced loop slack first) (C := InTime slack)
    (fun _ _ _ hs hc hn => paced_step hs hc (step_of_next hn)) (start_paced loop slack first) htime
  have hanswered := h.invariant_of (I := Answered since ok) (C := AnswersFrom loop since ok)
    (fun _ _ _ hs hc hn => answered_step hs hc (step_of_next hn)) ⟨nofun, nofun, Nat.le_refl _⟩
    hanswers
  have hown := h.invariant (I := fun s => (s.healthy, s.counters) =
      afterPings loop.failThreshold loop.recoverThreshold s.outcomes)
    (fun _ _ _ hs hn => tracks_step hs (step_of_next hn)) rfl
  refine ⟨hown, ?_⟩
  intro hlate
  obtain ⟨recent, older, hlog, hlen, hrecent⟩ := hpaced.enough hf hlate
  have hends : EndsRun ok (loop.threshold ok) u.outcomes := by
    rw [State.outcomes, hlog, List.map_append, ← hlen, ← List.length_map (f := Ping.ok)]
    apply endsRun_reverse
    intro b hbmem
    obtain ⟨p, hp, rfl⟩ := List.mem_map.mp hbmem
    exact hanswered.past p (hlog ▸ List.mem_append_left _ hp) (hrecent p hp)
  rw [← flag_of_endsRun hb hends, ← hown]

/-- As `run_with_listener` and `run_with_listener_hot` spawn it. -/
def serverLoop (upstreamAddr : String) : Loop :=
  ⟨upstreamAddr, true, 10000, ProxyHealthCheck.failThreshold, ProxyHealthCheck.recoverThreshold⟩

/-- 40 seconds after its upstream went down the flag is unhealthy, 30 after it is back healthy. -/
example (addr : String) :
    ((serverLoop addr).threshold false + 1) * gap (serverLoop addr) 0 = 40000 ∧
    ((serverLoop addr).threshold true + 1) * gap (serverLoop addr) 0 = 30000 := by
  simp [Loop.threshold, serverLoop, gap, lasting, pingTimeout, failThreshold, recoverThreshold]

def sampleRefused : List Event := [.pass 10000, .tick, .connect false, .turn]

def sampleDown : List Event := .tick :: (List.replicate 4 sampleRefused).flatten ++ [.pass 5]

theorem flag_follows_down : ∃ tr u, Run (next (serverLoop "127.0.0.1:3000")) (start 0) tr u ∧
    (u.now, u.healthy) = (40005, false) ∧ u.outcomes.length = 4 ∧
    Follows (serverLoop "127.0.0.1:3000") 0 0 false u := by
  obtain ⟨u, hr, hv⟩ := run_of_view (next (serverLoop "127.0.0.1:3000")) (start 0) sampleDown
    (fun s => (s.now, s.outcomes.length)) (40005, 4) rfl
  obtain ⟨hnow, hlen⟩ := Prod.mk.inj hv
  have hfollows : Follows (serverLoop "127.0.0.1:3000") 0 0 false u :=
    flag_follows ⟨by decide, by decide, by decide, by decide⟩ (Nat.le_refl 0) false hr
      (obeys_of_all (by decide +kernel)) (obeys_of_all (by decide +kernel))
  have hlate : 0 + ((serverLoop "127.0.0.1:3000").threshold false + 1) *
      gap (serverLoop "127.0.0.1:3000") 0 < u.now := by
    rw [hnow]
    simp [Loop.threshold, serverLoop, gap, lasting, pingTimeout, failThreshold]
  exact ⟨_, u, hr, by rw [hnow, hfollows.settled hlate], hlen, hfollows⟩

end HealthTiming
