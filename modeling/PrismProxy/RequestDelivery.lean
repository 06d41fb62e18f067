import PrismProxy.ConnectionExclusivity

/-! # How often the upstream gets a request

A call sends once, and once more when the first `send_request` fails. What bounds the
deliveries is a credit: a request sent and not yet received counts like one received. -/
namespace RequestDelivery

open TransitionRuns HttpMessage UpstreamForward
open ConnectionExclusivity (Ownership ownership_step boot_ownership outstanding_zero)

variable {calls : ℕ → Call}

def AtMostOnce (s : State) : Prop := ∀ i, s.deliveries i ≤ 1

def firstAttempt : Pc → Bool
  | .awaiting _ _ false => true
  | _ => false

/-- The first `send_request` of a call fails only while the upstream has not received the
complete request. -/
def RetryBeforeReceipt (s : State) : Event → Prop
  | .call i (.fail _) => firstAttempt (s.pc i) = true → s.deliveries i = 0
  | _ => True

instance (s : State) (e : Event) : Decidable (RetryBeforeReceipt s e) :=
  match e with
  | .call i (.fail _) =>
    inferInstanceAs (Decidable (firstAttempt (s.pc i) = true → s.deliveries i = 0))
  | .call _ .start | .call _ (.collect _) | .call _ .acquire | .call _ (.connect _)
  | .call _ (.handshake _) | .call _ (.send _) | .call _ (.respond _ _) | .call _ .release
  | .call _ (.body _) | .call _ .cancel | .receive _ | .drain _ | .close _ => isTrue trivial

theorem awaiting_of_firstAttempt {pc : Pc} (h : firstAttempt pc = true) :
    ∃ req c, pc = .awaiting req c false := by
  cases pc with
  | awaiting req c retry =>
    cases retry
    · exact ⟨req, c, rfl⟩
    · cases h
  | _ => cases h

def Unsent : Pc → Prop
  | .absent | .collecting | .acquiring _ | .connecting _ _ | .handshaking _ _ | .sending _ _ _ =>
    True
  | _ => False

def credit (s : State) (i : ℕ) : ℕ :=
  s.exchanges.countP (fun x => x.call == i && !x.received) + s.deliveries i

structure Accounted (s : State) : Prop where
  credit : ∀ i, credit s i ≤ 1
  unsent : ∀ i, Unsent (s.pc i) → s.deliveries i = 0 ∧ ∀ x ∈ s.exchanges, x.call ≠ i
  awaiting : ∀ i req c retry, s.pc i = .awaiting req c retry →
    ∀ x ∈ s.exchanges, x.call = i → x.conn = c
  live : ∀ x ∈ s.exchanges, s.isOpen x.conn = true

theorem boot_accounted (maxIdlePerHost : ℕ) : Accounted (boot maxIdlePerHost) := by
  constructor <;> simp [boot, credit, State.deliveries]

theorem Accounted.atMostOnce {s : State} (h : Accounted s) : AtMostOnce s := by
  intro i
  have hc := h.credit i
  unfold RequestDelivery.credit at hc
  omega

theorem Accounted.frame {s t : State} (h : Accounted s) (hd : t.delivered = s.delivered)
    (hc : ∀ p : Exchange → Bool, (∀ x y, x.call = y.call → x.received = y.received → p x = p y) →
      t.exchanges.countP p ≤ s.exchanges.countP p)
    (hx : ∀ y ∈ t.exchanges, ∃ x ∈ s.exchanges, x.call = y.call ∧ x.conn = y.conn)
    (ho : ∀ y ∈ t.exchanges, s.isOpen y.conn = true → t.isOpen y.conn = true)
    (hu : ∀ i, Unsent (t.pc i) → Unsent (s.pc i))
    (ha : ∀ i req c retry, t.pc i = .awaiting req c retry → s.pc i = .awaiting req c retry) :
    Accounted t := by
  have hdel : ∀ i, t.deliveries i = s.deliveries i := fun i => by simp only [State.deliveries, hd]
  refine ⟨?_, ?_, ?_, ?_⟩
  · intro i
    have hle := hc (fun x => x.call == i && !x.received) (by intro x y hxy hr; simp only [hxy, hr])
    have hi := h.credit i
    simp only [RequestDelivery.credit, hdel] at hi ⊢
    omega
  · intro i hi
    obtain ⟨hz, hno⟩ := h.unsent i (hu i hi)
    refine ⟨(hdel i).trans hz, ?_⟩
    intro y hy
    obtain ⟨x, hm, hcall, _⟩ := hx y hy
    rw [← hcall]
    exact hno x hm
  · intro i req c retry hp y hy hi
    obtain ⟨x, hm, hcall, hconn⟩ := hx y hy
    rw [← hconn]
    exact h.awaiting i req c retry (ha i req c retry hp) x hm (hcall.trans hi)
  · intro y hy
    obtain ⟨x, hm, _, hconn⟩ := hx y hy
    refine ho y hy ?_
    rw [← hconn]
    exact h.live x hm

theorem Accounted.goto {s t : State} {i : ℕ} {pc : Pc} (h : Accounted s)
    (hd : t.delivered = s.delivered) (hx : t.exchanges = s.exchanges) (hp : t.pc = (s.goto i pc).pc)
    (ho : ∀ c, s.isOpen c = true → t.isOpen c = true) (hu : Unsent pc → Unsent (s.pc i))
    (ha : ∀ req c retry, pc ≠ .awaiting req c retry) : Accounted t := by
  refine h.frame hd ?_ ?_ (fun y _ => ho y.conn) ?_ ?_
  · intro p _
    exact Nat.le_of_eq (by rw [hx])
  · intro y hy
    exact ⟨y, hx ▸ hy, rfl, rfl⟩
  · intro j hj
    rw [hp] at hj
    rcases goto_cases (P := Unsent) hj with ⟨rfl, hnew⟩ | ⟨_, hold⟩
    · exact hu hnew
    · exact hold
  · intro j req c retry hj
    rw [hp] at hj
    rcases goto_cases (P := fun pc => pc = .awaiting req c retry) hj with ⟨_, hj⟩ | ⟨_, hj⟩
    · exact absurd hj (ha req c retry)
    · exact hj

theorem afterSendError_ne (req : Request) (retry : Bool) (e : String) (req' : Request) (c : ℕ)
    (retry' : Bool) : afterSendError req retry e ≠ .awaiting req' c retry' := by
  cases retry <;> simp [afterSendError]

theorem moves_unsent {call : Call} {s : State} {i : ℕ} {p q : Pc} {act : Act}
    (h : Moves call s i p act q) :
    (Unsent q → Unsent p) ∧ ∀ req c retry, q ≠ .awaiting req c retry := by
  cases h with
  | refused req c retry e => exact ⟨fun _ => trivial, afterSendError_ne req retry e⟩
  | _ => simp [Unsent]

theorem isOpen_connected {s : State} {a : String} {c : ℕ} (h : s.isOpen c = true) :
    (s.connected a).isOpen c = true := by
  unfold State.isOpen at h ⊢
  cases hc : s.conns[c]? with
  | none => simp [hc] at h
  | some conn =>
    obtain ⟨hlt, _⟩ := List.getElem?_eq_some_iff.mp hc
    simpa [State.connected, List.getElem?_append_left hlt] using h

theorem accounted_sent {s : State} {i c : ℕ} {req : Request} {retry : Bool} (h : Accounted s)
    (hp : s.pc i = .sending req c retry) (hopen : s.isOpen c = true) :
    Accounted ((s.setExchanges (s.exchanges ++ [⟨i, c, req, false, false⟩])).goto i
      (.awaiting req c retry)) := by
  obtain ⟨hz, hno⟩ := h.unsent i (by rw [hp]; trivial)
  refine ⟨?_, ?_, ?_, ?_⟩
  · intro j
    have hj := h.credit j
    by_cases hji : i = j
    · subst hji
      have hnone : s.exchanges.countP (fun x => x.call == i && !x.received) = 0 := by
        rw [List.countP_eq_zero]
        intro x hx
        simp [hno x hx]
      change (s.exchanges ++ [_]).countP _ + s.deliveries i ≤ 1
      rw [List.countP_append, hnone, hz]
      simp
    · simpa [credit, State.deliveries, List.countP_append, hji] using hj
  · intro j hj
    rcases goto_cases (P := Unsent) hj with ⟨_, hj⟩ | ⟨hji, hj⟩
    · exact absurd hj id
    · obtain ⟨hzj, hnoj⟩ := h.unsent j hj
      refine ⟨hzj, ?_⟩
      intro x hx
      rcases List.mem_append.mp hx with hx | hx
      · exact hnoj x hx
      · rw [List.mem_singleton.mp hx]
        exact fun heq => hji heq.symm
  · intro j req' d retry' hj x hx hcall
    rcases goto_cases (P := fun pc => pc = .awaiting req' d retry') hj with ⟨rfl, hnew⟩ | ⟨hji, hj⟩
    · cases hnew
      rcases List.mem_append.mp hx with hx | hx
      · exact absurd hcall (hno x hx)
      · rw [List.mem_singleton.mp hx]
    · rcases List.mem_append.mp hx with hx | hx
      · exact h.awaiting j req' d retry' hj x hx hcall
      · rw [List.mem_singleton.mp hx] at hcall
        exact absurd hcall.symm hji
  · intro x hx
    rcases List.mem_append.mp hx with hx | hx
    · exact h.live x hx
    · rw [List.mem_singleton.mp hx]
      exact hopen

theorem accounted_failed {s : State} {i c : ℕ} {req : Request} {retry : Bool} {e : String}
    (h : Accounted s) (hc : RetryBeforeReceipt s (.call i (.fail e)))
    (hp : s.pc i = .awaiting req c retry) (hclosed : s.isOpen c = false) :
    Accounted (s.goto i (afterSendError req retry e)) := by
  cases retry with
  | true =>
    exact h.goto rfl rfl rfl (fun _ ho => ho) (fun hu => absurd hu id) (by simp [afterSendError])
  | false =>
    have hgone : ∀ x ∈ s.exchanges, x.call ≠ i := by
      intro x hx hcall
      have hlive := h.live x hx
      rw [h.awaiting i req c false hp x hx hcall, hclosed] at hlive
      cases hlive
    refine ⟨h.credit, ?_, ?_, h.live⟩
    · intro j hj
      rcases goto_cases (P := Unsent) hj with ⟨rfl, _⟩ | ⟨_, hj⟩
      · exact ⟨hc (by rw [hp]; rfl), hgone⟩
      · exact h.unsent j hj
    · intro j req' d retry' hj
      rcases goto_cases (P := fun pc => pc = .awaiting req' d retry') hj with ⟨_, hj⟩ | ⟨_, hj⟩
      · cases hj
      · exact h.awaiting j req' d retry' hj

theorem accounted_call {s t : State} {i : ℕ} {act : Act} (h : Accounted s)
    (hc : RetryBeforeReceipt s (.call i act)) (hs : CallStep (calls i) s i act t) :
    Accounted t := by
  cases hs with
  | move hm =>
    obtain ⟨hu, ha⟩ := moves_unsent hm
    exact h.goto rfl rfl rfl (fun _ ho => ho) hu ha
  | reuse req c hp hl =>
    refine h.goto rfl rfl rfl (fun _ ho => ho) ?_ (by simp)
    rw [hp]
    exact id
  | opened req retry hp =>
    refine h.goto rfl rfl rfl (fun _ ho => isOpen_connected ho) ?_ (by simp)
    rw [hp]
    exact id
  | sent req c retry hp hopen => exact accounted_sent h hp hopen
  | failed req c retry e hp hclosed => exact accounted_failed h hc hp hclosed
  | answered req retry k x resp hp hf hx =>
    have hk := first_getElem hf
    have hset : Accounted (s.setExchanges (s.exchanges.set k { x with headed := true })) := by
      refine h.frame rfl ?_ ?_ (fun _ _ ho => ho) (fun _ hu => hu) (fun _ _ _ _ ha => ha)
      · intro p hpx
        have hadd := countP_set_add hk p { x with headed := true }
        rw [hpx { x with headed := true } x rfl rfl] at hadd
        simp only [setExchanges_exchanges]
        omega
      · intro y hy
        exact mem_set_cases hk (by rfl) (by rfl) hy
    exact hset.goto rfl rfl rfl (fun _ ho => ho) (fun hu => absurd hu id) (by simp)
  | kept c resp hp hroom =>
    exact h.goto rfl rfl rfl (fun _ ho => ho) (fun hu => absurd hu id) (by simp)

theorem accounted_receive {s : State} {k : ℕ} {x : Exchange} (h : Accounted s)
    (hk : s.exchanges[k]? = some x) (hr : x.received = false) :
    Accounted { s with
      exchanges := s.exchanges.set k { x with received := true }
      delivered := ⟨x.call, x.conn, x.req⟩ :: s.delivered } := by
  have hmem : x ∈ s.exchanges := List.mem_of_getElem? hk
  have hold : ∀ y ∈ s.exchanges.set k { x with received := true },
      ∃ z ∈ s.exchanges, z.call = y.call ∧ z.conn = y.conn := by
    intro y hy
    exact mem_set_cases hk (by rfl) (by rfl) hy
  refine ⟨?_, ?_, ?_, ?_⟩
  · intro i
    have hi := h.credit i
    have hset := countP_set_add hk (fun z => z.call == i && !z.received) { x with received := true }
    simp only [credit, State.deliveries, List.countP_cons] at hi ⊢
    by_cases hxi : x.call = i
    · simp [hxi, hr] at hset ⊢
      omega
    · simp [hxi] at hset ⊢
      omega
  · intro i hi
    obtain ⟨hz, hno⟩ := h.unsent i hi
    have hxi : x.call ≠ i := hno x hmem
    refine ⟨?_, ?_⟩
    · simpa [State.deliveries, List.countP_cons, hxi] using hz
    · intro y hy
      obtain ⟨z, hz, hcall, _⟩ := hold y hy
      rw [← hcall]
      exact hno z hz
  · intro i req c retry hp y hy hi
    obtain ⟨z, hz, hcall, hconn⟩ := hold y hy
    rw [← hconn]
    exact h.awaiting i req c retry hp z hz (hcall.trans hi)
  · intro y hy
    obtain ⟨z, hz, _, hconn⟩ := hold y hy
    have hlive := h.live z hz
    rwa [hconn] at hlive

theorem isOpen_close {s : State} {c d : ℕ} {conn : Conn} (hd : d ≠ c) :
    (s.conns.set c conn)[d]?.any Conn.isOpen = s.isOpen d := by
  rw [State.isOpen, List.getElem?_set_ne hd.symm]

theorem accounted_step {s t : State} {e : Event} (h : Accounted s)
    (hc : RetryBeforeReceipt s e) (hs : Step calls s e t) : Accounted t := by
  cases hs with
  | call i act _ hs => exact accounted_call h hc hs
  | receive k x hk hr => exact accounted_receive h hk hr
  | drain k x hf hh =>
    refine h.frame rfl ?_ ?_ (fun _ _ ho => ho) (fun _ hu => hu) (fun _ _ _ _ ha => ha)
    · intro p _
      exact (List.eraseIdx_sublist ..).countP_le
    · intro y hy
      exact ⟨y, (List.eraseIdx_sublist ..).subset hy, rfl, rfl⟩
  | close c conn hconn =>
    refine h.frame rfl ?_ ?_ ?_ (fun _ hu => hu) (fun _ _ _ _ ha => ha)
    · intro p _
      exact List.filter_sublist.countP_le
    · intro y hy
      exact ⟨y, List.mem_of_mem_filter hy, rfl, rfl⟩
    · intro y hy ho
      have hne : y.conn ≠ c := by simpa using (List.mem_filter.mp hy).2
      exact (isOpen_close hne).trans ho

theorem resend {s : State} (ho : Ownership calls s) {i : ℕ} {req : Request} {retry : Bool}
    (hp : s.pc i = .connecting req retry) :
    ∃ tr t, Run (next calls) s tr t ∧ Obeys RetryBeforeReceipt tr ∧
      t.deliveries i = s.deliveries i + 1 := by
  let a := s.goto i (.handshaking req retry)
  let b := (a.connected (calls i).upstreamAddr).goto i (.sending req s.conns.length retry)
  let x : Exchange := ⟨i, s.conns.length, req, false, false⟩
  let c := (b.setExchanges (s.exchanges ++ [x])).goto i (.awaiting req s.conns.length retry)
  have hconnect : next calls s (.call i (.connect (.ok ()))) = some a := by
    simp only [next, callStep, hp, a]
  have hshake : next calls a (.call i (.handshake (.ok ()))) = some b := by
    simp only [next, callStep, a, goto_pc_self, b, goto_conns]
  have hsend : next calls b (.call i (.send (.ok ()))) = some c := by
    have hopen : b.isOpen s.conns.length = true := by
      simp [b, a, State.isOpen, State.connected]
    -- nothing is under way on a connection that has just been opened
    have hfree : b.outstanding s.conns.length = 0 :=
      outstanding_zero.mpr fun x hx => Nat.ne_of_lt (ho.known x hx)
    simp only [next, callStep, b, goto_pc_self]
    simp only [hopen, hfree, c, x, b, a, beq_self_eq_true, Bool.and_self, if_true, goto_exchanges,
      connected_exchanges]
  have hrecv : next calls c (.receive s.exchanges.length) = some
      { c with
        exchanges := c.exchanges.set s.exchanges.length { x with received := true }
        delivered := ⟨i, s.conns.length, req⟩ :: c.delivered } := by
    have hx : c.exchanges[s.exchanges.length]? = some x := by simp [c]
    simp only [next, hx, x]
    simp
  refine ⟨_, _, .cons hconnect (.cons hshake (.cons hsend (.single hrecv))), ?_, ?_⟩
  · simp [RetryBeforeReceipt]
  · simp [State.deliveries, c, b, a]

/-- While every first send fails only before the upstream has the request, no call is delivered
twice; a failure after that lets the call be delivered once more. -/
theorem delivered_once (calls : ℕ → Call) (maxIdlePerHost : ℕ) {tr : List (State × Event)}
    {u : State} (h : Run (next calls) (boot maxIdlePerHost) tr u) :
    (Obeys RetryBeforeReceipt tr → Always AtMostOnce tr u) ∧
    ∀ e v, next calls u e = some v → ¬ RetryBeforeReceipt u e →
      ∃ tr' w, Run (next calls) v tr' w ∧ Obeys RetryBeforeReceipt tr' ∧ ¬ AtMostOnce w := by
  constructor
  · exact h.always_of (fun _ _ _ hs hc hn => accounted_step hs hc (step_of_next hn))
      (fun _ hs => hs.atMostOnce) (boot_accounted maxIdlePerHost)
  · intro e v hn hviol
    have howned : Ownership calls v :=
      (h.snoc hn).invariant (fun _ _ _ hs hn => ownership_step hs (step_of_next hn))
        (boot_ownership calls maxIdlePerHost)
    unfold RetryBeforeReceipt at hviol
    split at hviol
    case h_2 => exact absurd trivial hviol
    case h_1 i err =>
      obtain ⟨hfirst, hdel⟩ := Classical.not_imp.mp hviol
      obtain ⟨req, c, hp⟩ := awaiting_of_firstAttempt hfirst
      simp only [next, callStep, hp, afterSendError] at hn
      obtain ⟨_, hn⟩ := Option.ite_none_left_eq_some.mp hn
      cases hn
      obtain ⟨tr', w, hr, ho, hw⟩ := resend howned (goto_pc_self u i (.connecting req true))
      refine ⟨tr', w, hr, ho, ?_⟩
      intro honce
      have hi := honce i
      have hpos : 0 < u.deliveries i := Nat.pos_of_ne_zero hdel
      rw [hw] at hi
      change u.deliveries i + 1 ≤ 1 at hi
      omega

theorem delivered_once_retried : ∃ tr u, Run (next fun _ => sampleCall) (boot 1) tr u ∧
    u.deliveries 0 = 1 ∧ Always AtMostOnce tr u := by
  obtain ⟨u, hr, hv⟩ := run_of_view (next fun _ => sampleCall) (boot 1)
    (sampleCold 0 ++ [.close 0, .call 0 (.fail "connection closed before message completed")] ++
      sampleSend 0 ++ [.receive 0])
    (fun s => s.deliveries 0) 1 rfl
  exact ⟨_, u, hr, hv, (delivered_once _ 1 hr).1 (obeys_of_all rfl)⟩

def NonIdempotent (method : String) : Prop :=
  method ∉ ["GET", "HEAD", "PUT", "DELETE", "OPTIONS", "TRACE"]

/-- On a connection opened for it the POST is received, the connection ends without a response
head, and the retry has it received again. -/
theorem delivered_twice : ¬ ∀ (calls : ℕ → Call) (maxIdlePerHost : ℕ)
    (tr : List (State × Event)) (u : State), Run (next calls) (boot maxIdlePerHost) tr u →
      ∀ i, NonIdempotent (calls i).req.method → u.deliveries i ≤ 1 := by
  intro hall
  obtain ⟨u, hr, hv⟩ := run_of_view (next fun _ => sampleCall) (boot 1)
    (sampleCold 0 ++ [.receive 0, .close 0,
      .call 0 (.fail "connection closed before message completed")] ++ sampleSend 0 ++ [.receive 0])
    (fun s => s.deliveries 0) 2 rfl
  have hone := hall _ _ _ u hr 0 (by simp [NonIdempotent, sampleCall])
  rw [hv] at hone
  omega

end RequestDelivery
