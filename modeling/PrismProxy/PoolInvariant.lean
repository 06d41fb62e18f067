import PrismProxy.ConnectionExclusivity

/-! # The pool over any interleaving of calls

Who holds a connection is `Ownership`. Added to it: how many are idle, to whom a connection was
opened, and what becomes of one whose `send_request` has failed. The failed sender lives on in
its call, beside the fresh one, until the call returns; nobody ever uses it again. -/
namespace PoolInvariant

open TransitionRuns HttpMessage UpstreamForward ConnectionExclusivity

variable {calls : ℕ → Call}

def opening (calls : ℕ → Call) (s : State) : Event → Option (ℕ × String)
  | .call i (.handshake (.ok ())) => some (s.conns.length, (calls i).upstreamAddr)
  | _ => none

def OpenedTo (calls : ℕ → Call) (tr : List (State × Event)) (c : ℕ) (a : String) : Prop :=
  ∃ p ∈ tr, opening calls p.1 p.2 = some (c, a)

/-- The connection on which a step's `send_request` fails. -/
def failing (s : State) : Event → Option ℕ
  | .call i (.send (.error _)) | .call i (.fail _) => sender (s.pc i)
  | _ => none

def SendFailed (tr : List (State × Event)) (c : ℕ) : Prop :=
  ∃ p ∈ tr, failing p.1 p.2 = some c

def InUse (s : State) (c : ℕ) : Prop := (∃ a, c ∈ s.idle a) ∨ ∃ i, sender (s.pc i) = some c

structure Pooled (calls : ℕ → Call) (maxIdlePerHost : ℕ) (tr : List (State × Event))
    (u : State) : Prop where
  capacity : ∀ a, (u.idle a).length ≤ maxIdlePerHost
  nodup : ∀ a, (u.idle a).Nodup
  once : ∀ a b c, c ∈ u.idle a → c ∈ u.idle b → a = b
  notHeld : ∀ i c, sender (u.pc i) = some c → ∀ a, c ∉ u.idle a
  oneHolder : ∀ i j c, sender (u.pc i) = some c → sender (u.pc j) = some c → i = j
  idleAddress : ∀ a c, c ∈ u.idle a → ∀ b, OpenedTo calls tr c b ↔ b = a
  heldAddress : ∀ i c, sender (u.pc i) = some c →
    ∀ b, OpenedTo calls tr c b ↔ b = (calls i).upstreamAddr
  failed : ∀ c, SendFailed tr c → ¬ InUse u c

structure Bounded (maxIdlePerHost : ℕ) (s : State) : Prop where
  max : s.maxIdlePerHost = maxIdlePerHost
  idle : ∀ a, (s.idle a).length ≤ maxIdlePerHost

theorem bounded_step {maxIdlePerHost : ℕ} {s t : State} {e : Event} (h : Bounded maxIdlePerHost s)
    (hs : Step calls s e t) : Bounded maxIdlePerHost t := by
  cases hs with
  | call i act _ hs =>
    cases hs with
    | reuse req c hp hl =>
      refine ⟨h.max, fun a => ?_⟩
      by_cases ha : a = (calls i).upstreamAddr
      · subst ha
        have hi := h.idle (calls i).upstreamAddr
        simp only [goto_idle, State.setIdle, Function.update_self, List.length_dropLast]
        omega
      · simpa [State.setIdle, Function.update_of_ne ha] using h.idle a
    | kept c resp hp hroom =>
      refine ⟨h.max, fun a => ?_⟩
      have hm := h.max
      by_cases ha : a = (calls i).upstreamAddr
      · subst ha
        simp only [goto_idle, State.setIdle, Function.update_self, List.length_append,
          List.length_singleton]
        omega
      · simpa [State.setIdle, Function.update_of_ne ha] using h.idle a
    | _ => exact ⟨h.max, h.idle⟩
  | _ => exact ⟨h.max, h.idle⟩

theorem addrOf_step {s t : State} {e : Event} {c : ℕ} {a : String} (hs : Step calls s e t) :
    addrOf t c = some a ↔ addrOf s c = some a ∨ opening calls s e = some (c, a) := by
  cases hs with
  | call i act _ hs =>
    cases hs with
    | opened req retry hp =>
      simp only [addrOf, goto_conns, State.connected, opening, Option.some.injEq, Prod.mk.injEq]
      rcases Nat.lt_trichotomy c s.conns.length with hlt | rfl | hgt
      · have hne : s.conns.length ≠ c := by omega
        simp [List.getElem?_append_left hlt, hne]
      · simp
      · have hne : s.conns.length ≠ c := by omega
        have hold : s.conns[c]? = none := List.getElem?_eq_none (by omega)
        have hnew : (s.conns ++ [⟨(calls i).upstreamAddr, true⟩])[c]? = none :=
          List.getElem?_eq_none (by simp only [List.length_append, List.length_singleton]; omega)
        simp [hold, hnew, hne]
    | move hm =>
      generalize s.pc i = p at hm
      cases hm <;> simp [addrOf, opening]
    | _ => simp [addrOf, opening]
  | close c' conn hc =>
    rw [show addrOf { s with conns := _, exchanges := _ } c = addrOf s c from addrOf_close hc c]
    simp [opening]
  | _ => simp [addrOf, opening]

theorem openedTo_snoc {tr : List (State × Event)} {s : State} {e : Event} {c : ℕ} {a : String} :
    OpenedTo calls (tr ++ [(s, e)]) c a ↔
      OpenedTo calls tr c a ∨ opening calls s e = some (c, a) := by
  simp only [OpenedTo, List.mem_append, List.mem_singleton]
  constructor
  · rintro ⟨p, hp | rfl, ho⟩
    · exact Or.inl ⟨p, hp, ho⟩
    · exact Or.inr ho
  · rintro (⟨p, hp, ho⟩ | ho)
    · exact ⟨p, Or.inl hp, ho⟩
    · exact ⟨(s, e), Or.inr rfl, ho⟩

theorem inUse_leave {s : State} {i c : ℕ} {pc : Pc} (h : Ownership calls s)
    (hpc : sender pc = none) (hc : InUse (s.goto i pc) c) :
    InUse s c ∧ sender (s.pc i) ≠ some c := by
  rcases hc with ⟨a, ha⟩ | ⟨j, hj⟩
  · exact ⟨Or.inl ⟨a, ha⟩, fun hi => h.notIdle i c hi a ha⟩
  · rcases goto_cases (P := fun pc => sender pc = some c) hj with ⟨_, hj⟩ | ⟨hne, hj⟩
    · rw [hpc] at hj
      cases hj
    · exact ⟨Or.inr ⟨j, hj⟩, fun hi => hne (h.unique j i c hj hi)⟩

theorem inUse_goto {s : State} {i c d : ℕ} {pc : Pc} (hpc : sender pc = some d)
    (hc : InUse (s.goto i pc) c) : InUse s c ∨ c = d := by
  rcases hc with hidle | ⟨j, hj⟩
  · exact Or.inl (Or.inl hidle)
  · rcases goto_cases (P := fun pc => sender pc = some c) hj with ⟨_, hj⟩ | ⟨_, hj⟩
    · exact Or.inr (Option.some.inj (hj.symm.trans hpc))
    · exact Or.inl (Or.inr ⟨j, hj⟩)

theorem inUse_setIdle {s : State} {a : String} {cs : List ℕ} {c : ℕ}
    (hcs : ∀ d ∈ cs, InUse s d) (hc : InUse (s.setIdle a cs) c) : InUse s c := by
  rcases hc with ⟨b, hb⟩ | hj
  · by_cases hba : b = a
    · subst hba
      simp only [State.setIdle, Function.update_self] at hb
      exact hcs c hb
    · simp only [State.setIdle, Function.update_of_ne hba] at hb
      exact Or.inl ⟨b, hb⟩
  · exact Or.inr hj

theorem inUse_call {s t : State} {i : ℕ} {act : Act} {c : ℕ} (h : Ownership calls s)
    (hs : CallStep (calls i) s i act t) (hc : InUse t c) :
    (InUse s c ∨ c = s.conns.length) ∧ failing s (.call i act) ≠ some c := by
  cases hs with
  | move hm =>
    obtain ⟨hold, hne⟩ := inUse_leave h (moves_sender hm) hc
    refine ⟨Or.inl hold, ?_⟩
    unfold failing
    split <;> simp_all
  | failed req d retry e hp ho =>
    obtain ⟨hold, hne⟩ := inUse_leave h (sender_afterSendError req retry e) hc
    exact ⟨Or.inl hold, hne⟩
  | reuse req d hp hl =>
    refine ⟨Or.inl ?_, nofun⟩
    rcases inUse_goto rfl hc with hc | rfl
    · exact inUse_setIdle (fun d hd => Or.inl ⟨_, (List.dropLast_sublist _).subset hd⟩) hc
    · exact Or.inl ⟨_, List.mem_of_getLast? hl⟩
  | opened req retry hp => exact ⟨inUse_goto (s := s.connected _) rfl hc, nofun⟩
  | sent req d retry hp ho =>
    refine ⟨Or.inl ?_, nofun⟩
    rcases inUse_goto (s := s) rfl hc with hc | rfl
    · exact hc
    · exact Or.inr ⟨i, by rw [hp]; rfl⟩
  | answered req retry k x resp hp hf hx =>
    refine ⟨Or.inl ?_, nofun⟩
    rcases inUse_goto (s := s) rfl hc with hc | rfl
    · exact hc
    · exact Or.inr ⟨i, by rw [hp]; rfl⟩
  | kept d resp hp hroom =>
    have hd : InUse s d := Or.inr ⟨i, by rw [hp]; rfl⟩
    refine ⟨Or.inl ?_, nofun⟩
    obtain ⟨a, ha⟩ | ⟨j, hj⟩ := hc
    · refine inUse_setIdle ?_ (Or.inl ⟨a, ha⟩)
      intro e he
      rcases List.mem_append.mp he with he | he
      · exact Or.inl ⟨_, he⟩
      · rw [List.mem_singleton.mp he]
        exact hd
    · rcases goto_cases (P := fun pc => sender pc = some c) hj with ⟨_, hj⟩ | ⟨_, hj⟩
      · cases hj
      · exact Or.inr ⟨j, hj⟩

theorem inUse_step {s t : State} {e : Event} {c : ℕ} (h : Ownership calls s)
    (hs : Step calls s e t) (hc : InUse t c) :
    (InUse s c ∨ c = s.conns.length) ∧ failing s e ≠ some c := by
  cases hs with
  | call i act _ hs => exact inUse_call h hs hc
  | _ => exact ⟨Or.inl hc, nofun⟩

theorem failing_sender {s : State} {e : Event} {c : ℕ} (h : failing s e = some c) :
    ∃ i, sender (s.pc i) = some c := by
  unfold failing at h
  split at h
  · exact ⟨_, h⟩
  · exact ⟨_, h⟩
  · cases h

theorem conns_length_step {s t : State} {e : Event} (hs : Step calls s e t) :
    s.conns.length ≤ t.conns.length := by
  cases hs with
  | call i act _ hs => cases hs <;> simp [State.connected]
  | close c conn hc => simp
  | _ => exact Nat.le_refl _

structure Unpooled (calls : ℕ → Call) (tr : List (State × Event)) (s : State) : Prop where
  ownership : Ownership calls s
  failed : ∀ c, SendFailed tr c → ¬ InUse s c ∧ c < s.conns.length

theorem Ownership.unpooled {s : State} (h : Ownership calls s) : Unpooled calls [] s := by
  refine ⟨h, ?_⟩
  rintro c ⟨p, hp, _⟩
  cases hp

theorem unpooled_step {tr : List (State × Event)} {s t : State} {e : Event}
    (h : Unpooled calls tr s) (hs : Step calls s e t) : Unpooled calls (tr ++ [(s, e)]) t := by
  refine ⟨ownership_step h.ownership hs, ?_⟩
  rintro c ⟨p, hp, hfail⟩
  have hlen := conns_length_step hs
  rcases List.mem_append.mp hp with hp | hp
  · obtain ⟨hnot, hlt⟩ := h.failed c ⟨p, hp, hfail⟩
    refine ⟨fun hc => ?_, by omega⟩
    rcases (inUse_step h.ownership hs hc).1 with hold | hnew
    · exact hnot hold
    · omega
  · rw [List.mem_singleton.mp hp] at hfail
    obtain ⟨i, hi⟩ := failing_sender hfail
    have hlt := h.ownership.senderKnown hi
    exact ⟨fun hc => (inUse_step h.ownership hs hc).2 hfail, by omega⟩

theorem Unpooled.run {s u : State} {tr : List (State × Event)} (h : Ownership calls s)
    (hr : Run (next calls) s tr u) : Unpooled calls tr u :=
  hr.traced_invariant (Ownership.unpooled h)
    fun _ _ _ _ ht hn => unpooled_step ht (step_of_next hn)

structure Tracked (calls : ℕ → Call) (maxIdlePerHost : ℕ) (tr : List (State × Event))
    (s : State) : Prop where
  bounded : Bounded maxIdlePerHost s
  address : ∀ c a, addrOf s c = some a ↔ OpenedTo calls tr c a

theorem boot_tracked (calls : ℕ → Call) (maxIdlePerHost : ℕ) :
    Tracked calls maxIdlePerHost [] (boot maxIdlePerHost) := by
  refine ⟨⟨rfl, ?_⟩, ?_⟩
  · simp [boot]
  · simp [boot, addrOf, OpenedTo]

theorem tracked_step {maxIdlePerHost : ℕ} {tr : List (State × Event)} {s t : State} {e : Event}
    (h : Tracked calls maxIdlePerHost tr s) (hs : Step calls s e t) :
    Tracked calls maxIdlePerHost (tr ++ [(s, e)]) t := by
  refine ⟨bounded_step h.bounded hs, ?_⟩
  intro c a
  rw [addrOf_step hs, openedTo_snoc, h.address c a]

/-- Every run of every interleaving of calls, from an empty pool. -/
theorem pool_invariant (calls : ℕ → Call) (maxIdlePerHost : ℕ) {tr : List (State × Event)}
    {u : State} (h : Run (next calls) (boot maxIdlePerHost) tr u) :
    Pooled calls maxIdlePerHost tr u := by
  have ht : Tracked calls maxIdlePerHost tr u :=
    h.traced_invariant (boot_tracked calls maxIdlePerHost)
      fun _ _ _ _ ht hn => tracked_step ht (step_of_next hn)
  have hu : Unpooled calls tr u := Unpooled.run (boot_ownership calls maxIdlePerHost) h
  have opened : ∀ {c a}, addrOf u c = some a → ∀ b, OpenedTo calls tr c b ↔ b = a := by
    intro c a ha b
    rw [← ht.address, ha, Option.some.injEq, eq_comm]
  refine ⟨ht.bounded.idle, hu.ownership.idleNodup, ?_, hu.ownership.notIdle, hu.ownership.unique,
    ?_, ?_, fun c hc => (hu.failed c hc).1⟩
  · intro a b c ha hb
    have haddr := hu.ownership.idleAddr b c hb
    rw [hu.ownership.idleAddr a c ha] at haddr
    exact Option.some.inj haddr
  · intro a c hc
    exact opened (hu.ownership.idleAddr a c hc)
  · intro i c hc
    exact opened (hu.ownership.senderAddr i c hc)

/-- A stale connection: the first call leaves it in the pool, the second finds it closed and
retries on a fresh one. -/
theorem pool_invariant_retried : ∃ tr u, Run (next fun _ => sampleCall) (boot 1) tr u ∧
    (u.idle sampleAddr, sender (u.pc 1)) = ([], some 1) ∧
    Pooled (fun _ => sampleCall) 1 tr u := by
  obtain ⟨u, hr, hv⟩ := run_of_view (next fun _ => sampleCall) (boot 1)
    (sampleCold 0 ++ [.receive 0, .call 0 (.respond 0 ⟨200, []⟩), .drain 0, .call 0 .release,
      .close 0, .call 1 .start, .call 1 (.collect (.ok ())), .call 1 .acquire,
      .call 1 (.send (.error "connection closed"))] ++ sampleSend 1)
    (fun s => (s.idle sampleAddr, sender (s.pc 1))) ([], some 1) rfl
  exact ⟨_, u, hr, hv, pool_invariant _ 1 hr⟩

end PoolInvariant
