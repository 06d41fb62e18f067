import PrismProxy.UpstreamForward

/-! # Who uses a connection

A connection is idle in the pool, or the sender of one call, or neither. What is not implied
by that is that an idle connection has been read to the end of its last response: `release`
comes at the response head. -/
namespace ConnectionExclusivity

open TransitionRuns HttpMessage UpstreamForward

variable {calls : ℕ → Call}

/-- The connection whose `SendRequest` the call holds. -/
def sender : Pc → Option ℕ
  | .sending _ c _ | .awaiting _ c _ | .releasing c _ => some c
  | _ => none

def addrOf (s : State) (c : ℕ) : Option String := s.conns[c]?.map Conn.addr

structure Ownership (calls : ℕ → Call) (s : State) : Prop where
  idleNodup : ∀ a, (s.idle a).Nodup
  idleAddr : ∀ a, ∀ c ∈ s.idle a, addrOf s c = some a
  senderAddr : ∀ i c, sender (s.pc i) = some c → addrOf s c = some (calls i).upstreamAddr
  notIdle : ∀ i c, sender (s.pc i) = some c → ∀ a, c ∉ s.idle a
  unique : ∀ i j c, sender (s.pc i) = some c → sender (s.pc j) = some c → i = j
  known : ∀ x ∈ s.exchanges, x.conn < s.conns.length

theorem boot_ownership (calls : ℕ → Call) (maxIdlePerHost : ℕ) :
    Ownership calls (boot maxIdlePerHost) := by
  constructor <;> simp [boot, sender]

theorem Ownership.idleKnown {s : State} (h : Ownership calls s) {a : String} {c : ℕ}
    (hc : c ∈ s.idle a) : c < s.conns.length := by
  obtain ⟨conn, hconn, _⟩ := Option.map_eq_some_iff.mp (h.idleAddr a c hc)
  exact (List.getElem?_eq_some_iff.mp hconn).1

theorem Ownership.senderKnown {s : State} (h : Ownership calls s) {i c : ℕ}
    (hc : sender (s.pc i) = some c) : c < s.conns.length := by
  obtain ⟨conn, hconn, _⟩ := Option.map_eq_some_iff.mp (h.senderAddr i c hc)
  exact (List.getElem?_eq_some_iff.mp hconn).1

theorem Ownership.frame {s t : State} (h : Ownership calls s) (hi : t.idle = s.idle)
    (ha : ∀ c, addrOf t c = addrOf s c)
    (hp : ∀ i c, sender (t.pc i) = some c → sender (s.pc i) = some c)
    (hk : ∀ x ∈ t.exchanges, x.conn < t.conns.length) : Ownership calls t where
  idleNodup := by simpa only [hi] using h.idleNodup
  idleAddr := by simpa only [hi, ha] using h.idleAddr
  senderAddr := by
    intro i c hc
    rw [ha]
    exact h.senderAddr i c (hp i c hc)
  notIdle := by
    intro i c hc
    rw [hi]
    exact h.notIdle i c (hp i c hc)
  unique := fun i j c hc hd => h.unique i j c (hp i c hc) (hp j c hd)
  known := hk

theorem sender_goto {s : State} {i : ℕ} {pc : Pc}
    (h : ∀ c, sender pc = some c → sender (s.pc i) = some c) (j c : ℕ)
    (hc : sender ((s.goto i pc).pc j) = some c) : sender (s.pc j) = some c := by
  rcases goto_cases (P := fun pc => sender pc = some c) hc with ⟨rfl, hnew⟩ | ⟨_, hold⟩
  · exact h c hnew
  · exact hold

theorem sender_afterSendError (req : Request) (retry : Bool) (e : String) :
    sender (afterSendError req retry e) = none := by
  cases retry <;> rfl

theorem moves_sender {call : Call} {s : State} {i : ℕ} {p q : Pc} {act : Act}
    (h : Moves call s i p act q) : sender q = none := by
  cases h with
  | refused req c retry e => exact sender_afterSendError req retry e
  | _ => rfl

theorem Ownership.take {s t : State} {i c : ℕ} (h : Ownership calls s)
    (hsub : ∀ a, (t.idle a).Sublist (s.idle a))
    (ha : ∀ d, d < s.conns.length → addrOf t d = addrOf s d)
    (hc : addrOf t c = some (calls i).upstreamAddr)
    (hpi : sender (t.pc i) = some c) (hp : ∀ j, j ≠ i → t.pc j = s.pc j)
    (hnew : ∀ j, sender (s.pc j) ≠ some c) (hidle : ∀ a, c ∉ t.idle a)
    (hk : ∀ x ∈ t.exchanges, x.conn < t.conns.length) : Ownership calls t where
  idleNodup := fun a => (hsub a).nodup (h.idleNodup a)
  idleAddr := by
    intro a d hd
    have hd := (hsub a).subset hd
    rw [ha d (h.idleKnown hd)]
    exact h.idleAddr a d hd
  senderAddr := by
    intro j d hd
    by_cases hj : j = i
    · subst hj
      obtain rfl := Option.some.inj (hpi.symm.trans hd)
      exact hc
    · rw [hp j hj] at hd
      rw [ha d (h.senderKnown hd)]
      exact h.senderAddr j d hd
  notIdle := by
    intro j d hd a hm
    by_cases hj : j = i
    · subst hj
      obtain rfl := Option.some.inj (hpi.symm.trans hd)
      exact hidle a hm
    · rw [hp j hj] at hd
      exact h.notIdle j d hd a ((hsub a).subset hm)
  unique := by
    intro j k d hj hk
    by_cases hji : j = i <;> by_cases hki : k = i
    · rw [hji, hki]
    · subst hji
      obtain rfl := Option.some.inj (hpi.symm.trans hj)
      rw [hp k hki] at hk
      exact absurd hk (hnew k)
    · subst hki
      obtain rfl := Option.some.inj (hpi.symm.trans hk)
      rw [hp j hji] at hj
      exact absurd hj (hnew j)
    · rw [hp j hji] at hj
      rw [hp k hki] at hk
      exact h.unique j k d hj hk
  known := hk

theorem addrOf_close {s : State} {c : ℕ} {conn : Conn} (h : s.conns[c]? = some conn) (d : ℕ) :
    (s.conns.set c { conn with isOpen := false })[d]?.map Conn.addr = addrOf s d := by
  by_cases hd : c = d
  · subst hd
    obtain ⟨hlt, _⟩ := List.getElem?_eq_some_iff.mp h
    simp [addrOf, h, List.getElem?_set_self hlt]
  · simp [addrOf, List.getElem?_set_ne hd]

theorem addrOf_connected {s : State} {a : String} {d : ℕ} (h : d < s.conns.length) :
    addrOf (s.connected a) d = addrOf s d := by
  simp [addrOf, State.connected, List.getElem?_append_left h]

theorem ownership_reuse {s : State} {i c : ℕ} {req : Request} (h : Ownership calls s)
    (hl : (s.idle (calls i).upstreamAddr).getLast? = some c) :
    Ownership calls
      ((s.setIdle (calls i).upstreamAddr (s.idle (calls i).upstreamAddr).dropLast).goto
        i (.sending req c false)) := by
  obtain ⟨rest, hrest⟩ := List.getLast?_eq_some_iff.mp hl
  have hmem : c ∈ s.idle (calls i).upstreamAddr := List.mem_of_getLast? hl
  have hsub : ∀ a, ((s.setIdle (calls i).upstreamAddr
      (s.idle (calls i).upstreamAddr).dropLast).idle a).Sublist (s.idle a) := by
    intro a
    by_cases ha : a = (calls i).upstreamAddr
    · subst ha
      simp only [State.setIdle, Function.update_self]
      exact List.dropLast_sublist _
    · simp [State.setIdle, Function.update_of_ne ha]
  refine h.take hsub (fun _ _ => rfl) (h.idleAddr _ c hmem) (by simp [sender])
    (fun j hj => goto_pc_of_ne _ _ hj) ?_ ?_ h.known
  · intro j hj
    exact h.notIdle j c hj _ hmem
  · intro a hc
    by_cases ha : a = (calls i).upstreamAddr
    · subst ha
      have hnd := h.idleNodup (calls i).upstreamAddr
      rw [hrest] at hnd
      simp only [State.setIdle, goto_idle, Function.update_self, hrest,
        List.dropLast_concat] at hc
      exact (List.nodup_append.mp hnd).2.2 c hc c (by simp) rfl
    · have haddr := h.idleAddr a c ((hsub a).subset hc)
      rw [h.idleAddr _ c hmem] at haddr
      exact ha (Option.some.inj haddr).symm

theorem ownership_kept {s : State} {i c : ℕ} {resp : Head} (h : Ownership calls s)
    (hp : s.pc i = .releasing c resp) :
    Ownership calls ((s.setIdle (calls i).upstreamAddr (s.idle (calls i).upstreamAddr ++ [c])).goto
      i (.reading c resp)) := by
  have hc : sender (s.pc i) = some c := by rw [hp]; rfl
  have hpc : ∀ j d, sender (((s.setIdle (calls i).upstreamAddr
      (s.idle (calls i).upstreamAddr ++ [c])).goto i (.reading c resp)).pc j) = some d →
      j ≠ i ∧ sender (s.pc j) = some d := by
    intro j d hd
    rcases goto_cases (P := fun pc => sender pc = some d) hd with ⟨_, hd⟩ | ⟨hj, hd⟩
    · cases hd
    · exact ⟨hj, hd⟩
  have hmem : ∀ a d, d ∈ (s.setIdle (calls i).upstreamAddr
      (s.idle (calls i).upstreamAddr ++ [c])).idle a →
      d ∈ s.idle a ∨ (a = (calls i).upstreamAddr ∧ d = c) := by
    intro a d hd
    by_cases ha : a = (calls i).upstreamAddr
    · subst ha
      simpa [State.setIdle] using hd
    · simp only [State.setIdle, Function.update_of_ne ha] at hd
      exact Or.inl hd
  refine ⟨?_, ?_, ?_, ?_, ?_, h.known⟩
  · intro a
    by_cases ha : a = (calls i).upstreamAddr
    · subst ha
      simp only [goto_idle, State.setIdle, Function.update_self]
      refine List.nodup_append.mpr ⟨h.idleNodup _, by simp, ?_⟩
      intro d hd e he
      rintro rfl
      rw [List.mem_singleton.mp he] at hd
      exact h.notIdle i c hc _ hd
    · simp only [goto_idle, State.setIdle, Function.update_of_ne ha]
      exact h.idleNodup a
  · intro a d hd
    rcases hmem a d hd with hd | ⟨rfl, rfl⟩
    · exact h.idleAddr a d hd
    · exact h.senderAddr i d hc
  · intro j d hd
    exact h.senderAddr j d (hpc j d hd).2
  · intro j d hd a ha
    obtain ⟨hj, hs⟩ := hpc j d hd
    rcases hmem a d ha with ha | ⟨_, rfl⟩
    · exact h.notIdle j d hs a ha
    · exact hj (h.unique j i d hs hc)
  · intro j k d hj hk
    exact h.unique j k d (hpc j d hj).2 (hpc k d hk).2

theorem ownership_call {s t : State} {i : ℕ} {act : Act} (h : Ownership calls s)
    (hs : CallStep (calls i) s i act t) : Ownership calls t := by
  cases hs with
  | move hm =>
    refine h.frame rfl (fun _ => rfl) (sender_goto ?_) h.known
    intro c hc
    rw [moves_sender hm] at hc
    cases hc
  | failed req c retry e hp ho =>
    refine h.frame rfl (fun _ => rfl) (sender_goto ?_) h.known
    intro d hd
    rw [sender_afterSendError] at hd
    cases hd
  | sent req c retry hp ho =>
    refine h.frame rfl (fun _ => rfl) (sender_goto (s := s) ?_) ?_
    · intro d hd
      rw [hp]
      exact hd
    · intro x hx
      rcases List.mem_append.mp hx with hx | hx
      · exact h.known x hx
      · rw [List.mem_singleton.mp hx]
        exact h.senderKnown (by rw [hp]; rfl)
  | answered req retry k x resp hp hf hx =>
    refine h.frame rfl (fun _ => rfl) (sender_goto (s := s) ?_) ?_
    · intro d hd
      rw [hp]
      exact hd
    · intro y hy
      obtain ⟨w, hw, _, heq⟩ := mem_set_cases (first_getElem hf) (by rfl) (by rfl) hy
      rw [← heq]
      exact h.known w hw
  | reuse req c hp hl => exact ownership_reuse h hl
  | opened req retry hp =>
    have hno : ∀ d, d < s.conns.length → d ≠ s.conns.length := fun d hd => by omega
    refine h.take (c := s.conns.length) (fun _ => List.Sublist.refl _)
      (fun d hd => addrOf_connected hd) ?_ (by simp [sender])
      (fun j hj => goto_pc_of_ne _ _ hj) ?_ ?_ ?_
    · simp [addrOf, State.connected]
    · intro j hj
      exact hno _ (h.senderKnown hj) rfl
    · intro a hc
      exact hno _ (h.idleKnown hc) rfl
    · intro x hx
      have hlt := h.known x hx
      simp only [goto_conns, State.connected, List.length_append, List.length_singleton]
      omega
  | kept c resp hp hroom => exact ownership_kept h hp

theorem ownership_step {s t : State} {e : Event} (h : Ownership calls s)
    (hs : Step calls s e t) : Ownership calls t := by
  cases hs with
  | call i act _ hs => exact ownership_call h hs
  | receive k x hx hr =>
    refine h.frame rfl (fun _ => rfl) (fun _ _ hc => hc) ?_
    intro y hy
    obtain ⟨w, hw, _, heq⟩ := mem_set_cases hx (by rfl) (by rfl) hy
    rw [← heq]
    exact h.known w hw
  | drain k x hf hh =>
    refine h.frame rfl (fun _ => rfl) (fun _ _ hc => hc) ?_
    intro y hy
    exact h.known y ((List.eraseIdx_sublist ..).subset hy)
  | close c conn hc =>
    refine h.frame rfl (addrOf_close hc) (fun _ _ hd => hd) ?_
    intro y hy
    rw [List.length_set]
    exact h.known y (List.mem_of_mem_filter hy)

/-- An idle connection has no exchange on it, and no connection has two. -/
structure Exclusive (s : State) : Prop where
  idle : ∀ a, ∀ c ∈ s.idle a, s.outstanding c = 0
  single : ∀ c, s.outstanding c ≤ 1

/-- A release that puts the connection into the pool comes after its response has been read
to the end. -/
def ReleasesComplete (calls : ℕ → Call) (s : State) : Event → Prop
  | .call i .release => ∀ c resp, s.pc i = .releasing c resp →
    (s.idle (calls i).upstreamAddr).length < s.maxIdlePerHost → s.outstanding c = 0
  | _ => True

structure Guarded (calls : ℕ → Call) (s : State) : Prop where
  ownership : Ownership calls s
  exclusive : Exclusive s
  sending : ∀ i req c retry, s.pc i = .sending req c retry → s.outstanding c = 0

theorem outstanding_zero {s : State} {c : ℕ} :
    s.outstanding c = 0 ↔ ∀ x ∈ s.exchanges, x.conn ≠ c := by
  simp [State.outstanding, List.countP_eq_zero]

theorem outstanding_set {xs : List Exchange} {k : ℕ} {x y : Exchange} (h : xs[k]? = some x)
    (hy : y.conn = x.conn) (c : ℕ) :
    (xs.set k y).countP (fun z => z.conn == c) = xs.countP fun z => z.conn == c := by
  have hset := countP_set_add h (fun z => z.conn == c) y
  simp only [hy] at hset
  omega

theorem Guarded.frame {s t : State} (h : Guarded calls s) (ho : Ownership calls t)
    (hi : t.idle = s.idle) (hle : ∀ c, t.outstanding c ≤ s.outstanding c)
    (hs : ∀ i req c retry, t.pc i = .sending req c retry → s.pc i = .sending req c retry) :
    Guarded calls t where
  ownership := ho
  exclusive := by
    constructor
    · intro a c hc
      rw [hi] at hc
      have hz := h.exclusive.idle a c hc
      have hc := hle c
      omega
    · intro c
      exact Nat.le_trans (hle c) (h.exclusive.single c)
  sending := by
    intro i req c retry hp
    have hz := h.sending i req c retry (hs i req c retry hp)
    have hc := hle c
    omega

theorem sending_goto {s : State} {i : ℕ} {pc : Pc}
    (h : ∀ req c retry, pc ≠ .sending req c retry) (j : ℕ) (req : Request) (c : ℕ) (retry : Bool)
    (hp : (s.goto i pc).pc j = .sending req c retry) : s.pc j = .sending req c retry := by
  rcases goto_cases (P := fun pc => pc = .sending req c retry) hp with ⟨_, hp⟩ | ⟨_, hp⟩
  · exact absurd hp (h req c retry)
  · exact hp

theorem not_sending {pc : Pc} (h : sender pc = none) (req : Request) (c : ℕ) (retry : Bool) :
    pc ≠ .sending req c retry := by
  rintro rfl
  cases h

theorem Guarded.take {s t : State} {i c : ℕ} {req : Request} {retry : Bool} (h : Guarded calls s)
    (ho : Ownership calls t) (hsub : ∀ a, ∀ d ∈ t.idle a, d ∈ s.idle a)
    (hx : t.exchanges = s.exchanges) (hpi : t.pc i = .sending req c retry)
    (hp : ∀ j, j ≠ i → t.pc j = s.pc j) (hc : s.outstanding c = 0) : Guarded calls t := by
  have heq : ∀ d, t.outstanding d = s.outstanding d := fun d => by simp only [State.outstanding, hx]
  refine ⟨ho, ⟨?_, ?_⟩, ?_⟩
  · intro a d hd
    rw [heq]
    exact h.exclusive.idle a d (hsub a d hd)
  · intro d
    rw [heq]
    exact h.exclusive.single d
  · intro j req' d retry' hj
    rw [heq]
    by_cases hji : j = i
    · subst hji
      rw [hpi] at hj
      cases hj
      exact hc
    · rw [hp j hji] at hj
      exact h.sending j req' d retry' hj

theorem guarded_sent {s : State} {i c : ℕ} {req : Request} {retry : Bool} {x : Exchange}
    (h : Guarded calls s)
    (ho : Ownership calls ((s.setExchanges (s.exchanges ++ [x])).goto i (.awaiting req c retry)))
    (hp : s.pc i = .sending req c retry) (hx : x.conn = c) :
    Guarded calls ((s.setExchanges (s.exchanges ++ [x])).goto i (.awaiting req c retry)) := by
  have hsender : sender (s.pc i) = some c := by rw [hp]; rfl
  have hadd : ∀ d, ((s.setExchanges (s.exchanges ++ [x])).goto i
      (.awaiting req c retry)).outstanding d = s.outstanding d + if c = d then 1 else 0 := by
    intro d
    simp [State.outstanding, List.countP_append, List.countP_singleton, hx]
  have hother : ∀ {d}, c ≠ d → s.outstanding d = 0 → ((s.setExchanges (s.exchanges ++ [x])).goto i
      (.awaiting req c retry)).outstanding d = 0 := by
    intro d hne hzero
    rw [hadd, if_neg hne]
    omega
  refine ⟨ho, ⟨?_, ?_⟩, ?_⟩
  · intro a d hd
    refine hother ?_ (h.exclusive.idle a d hd)
    rintro rfl
    exact h.ownership.notIdle i c hsender a hd
  · intro d
    have hz := h.sending i req c retry hp
    have hone := h.exclusive.single d
    rw [hadd]
    by_cases hd : c = d
    · subst hd
      rw [if_pos rfl]
      omega
    · rw [if_neg hd]
      omega
  · intro j req' d retry' hj
    rcases goto_cases (P := fun pc => pc = .sending req' d retry') hj with ⟨_, hj⟩ | ⟨hji, hj⟩
    · cases hj
    · refine hother ?_ (h.sending j req' d retry' hj)
      rintro rfl
      have hsj : sender (s.pc j) = some c := by rw [show s.pc j = _ from hj]; rfl
      exact hji (h.ownership.unique j i c hsj hsender)

theorem guarded_call {s t : State} {i : ℕ} {act : Act} (h : Guarded calls s)
    (hc : ReleasesComplete calls s (.call i act)) (hs : CallStep (calls i) s i act t) :
    Guarded calls t := by
  have ho := ownership_call h.ownership hs
  cases hs with
  | move hm =>
    exact h.frame ho rfl (fun _ => Nat.le_refl _) (sending_goto (not_sending (moves_sender hm)))
  | failed req c retry e hp hclosed =>
    exact h.frame ho rfl (fun _ => Nat.le_refl _)
      (sending_goto (not_sending (sender_afterSendError req retry e)))
  | answered req retry k x resp hp hf hx =>
    refine h.frame ho rfl ?_ (sending_goto (s := s) (by simp))
    intro c
    exact Nat.le_of_eq (outstanding_set (first_getElem hf) (by rfl) c)
  | reuse req c hp hl =>
    have hmem : c ∈ s.idle (calls i).upstreamAddr := List.mem_of_getLast? hl
    refine h.take ho ?_ rfl (goto_pc_self ..) (fun j hj => goto_pc_of_ne _ _ hj)
      (h.exclusive.idle _ c hmem)
    intro a d hd
    by_cases ha : a = (calls i).upstreamAddr
    · subst ha
      simp only [goto_idle, State.setIdle, Function.update_self] at hd
      exact (List.dropLast_sublist _).subset hd
    · simpa [State.setIdle, Function.update_of_ne ha] using hd
  | opened req retry hp =>
    refine h.take ho (fun _ _ hd => hd) rfl (goto_pc_self ..) (fun j hj => goto_pc_of_ne _ _ hj) ?_
    rw [outstanding_zero]
    intro x hx
    have hlt := h.ownership.known x hx
    omega
  | sent req c retry hp hopen => exact guarded_sent h ho hp rfl
  | kept c resp hp hroom =>
    refine ⟨ho, ⟨?_, h.exclusive.single⟩, ?_⟩
    · intro a d hd
      by_cases ha : a = (calls i).upstreamAddr
      · subst ha
        simp only [goto_idle, State.setIdle, Function.update_self, List.mem_append,
          List.mem_singleton] at hd
        rcases hd with hd | rfl
        · exact h.exclusive.idle _ d hd
        · exact hc d resp hp hroom
      · simp only [goto_idle, State.setIdle, Function.update_of_ne ha] at hd
        exact h.exclusive.idle a d hd
    · intro j req d retry hj
      exact h.sending j req d retry (sending_goto (s := s) (by simp) j req d retry hj)

theorem guarded_step {s t : State} {e : Event} (h : Guarded calls s)
    (hc : ReleasesComplete calls s e) (hs : Step calls s e t) : Guarded calls t := by
  have ho := ownership_step h.ownership hs
  cases hs with
  | call i act _ hs => exact guarded_call h hc hs
  | receive k x hx hr =>
    refine h.frame ho rfl ?_ (fun _ _ _ _ hp => hp)
    intro c
    exact Nat.le_of_eq (outstanding_set hx (by rfl) c)
  | drain k x hf hh =>
    refine h.frame ho rfl ?_ (fun _ _ _ _ hp => hp)
    intro c
    exact (List.eraseIdx_sublist ..).countP_le
  | close c conn hconn =>
    refine h.frame ho rfl ?_ (fun _ _ _ _ hp => hp)
    intro c
    exact List.filter_sublist.countP_le

theorem boot_guarded (calls : ℕ → Call) (maxIdlePerHost : ℕ) :
    Guarded calls (boot maxIdlePerHost) := by
  refine ⟨boot_ownership calls maxIdlePerHost, ⟨?_, ?_⟩, ?_⟩ <;> simp [boot, State.outstanding]

/-- A release breaks exclusivity exactly when it puts a connection into the pool whose response
is not read yet. -/
theorem releasesComplete_of_exclusive {s t : State} {e : Event} (ht : Exclusive t)
    (h : next calls s e = some t) : ReleasesComplete calls s e := by
  unfold ReleasesComplete
  split
  case h_2 => trivial
  case h_1 i =>
    intro c resp hp hroom
    simp only [next, callStep, hp, releaseStep, if_pos hroom] at h
    cases h
    exact ht.idle (calls i).upstreamAddr c (by simp [State.setIdle])

/-- Connections are used exclusively throughout a run exactly when every connection the run puts
into the pool has been read to the end of its response. -/
theorem exclusive_iff (calls : ℕ → Call) (maxIdlePerHost : ℕ) {tr : List (State × Event)}
    {u : State} (h : Run (next calls) (boot maxIdlePerHost) tr u) :
    Always Exclusive tr u ↔ Obeys (ReleasesComplete calls) tr := by
  constructor
  · exact h.obeys_of_always fun _ _ _ _ ht hn => releasesComplete_of_exclusive ht hn
  · exact h.always_of (fun _ _ _ hs hc hn => guarded_step hs hc (step_of_next hn))
      (fun _ hs => hs.exclusive) (boot_guarded calls maxIdlePerHost)

theorem exclusive_iff_drained : ∃ tr u, Run (next fun _ => sampleCall) (boot 1) tr u ∧
    (u.idle sampleAddr, u.outstanding 0) = ([0], 0) ∧
    (Always Exclusive tr u ↔ Obeys (ReleasesComplete fun _ => sampleCall) tr) := by
  obtain ⟨u, hr, hv⟩ := run_of_view (next fun _ => sampleCall) (boot 1)
    (sampleCold 0 ++ [.receive 0, .call 0 (.respond 0 ⟨200, []⟩), .drain 0, .call 0 .release])
    (fun s => (s.idle sampleAddr, s.outstanding 0)) ([0], 0) rfl
  exact ⟨_, u, hr, hv, exclusive_iff _ 1 hr⟩

/-- Released at the response head, a connection lies in the pool with its response unread. -/
theorem idle_unread : ¬ ∀ (calls : ℕ → Call) (maxIdlePerHost : ℕ) (tr : List (State × Event))
    (u : State), Run (next calls) (boot maxIdlePerHost) tr u → Exclusive u := by
  intro hall
  obtain ⟨u, hr, hv⟩ := run_of_view (next fun _ => sampleCall) (boot 1)
    (sampleCold 0 ++ [.receive 0, .call 0 (.respond 0 ⟨200, []⟩), .call 0 .release])
    (fun s => (s.idle sampleAddr, s.outstanding 0)) ([0], 1) rfl
  obtain ⟨hidle, hout⟩ := Prod.mk.inj hv
  have hzero := (hall _ _ _ u hr).idle sampleAddr 0 (by simp [hidle])
  rw [hout] at hzero
  cases hzero

end ConnectionExclusivity
