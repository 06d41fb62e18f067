import PrismProxy.PoolInvariant

/-! # A call does not see the pool

One call among any others, against an upstream that answers each request it has received as a
function of it. Connections from before the call may refuse a request, or close as long as the
upstream has not received it; those opened since stay open. -/
namespace PoolTransparency

open TransitionRuns HttpMessage UpstreamForward ConnectionExclusivity PoolInvariant
open ProxyConfig (ProxyError)
open ProxyPlugin (Bytes)

variable {calls : ℕ → Call} {i n : ℕ} {answer : Request → Head × Bytes}
  {collected : Except String Unit}

/-- What the call returns, by the outcome of reading the client's body and the upstream's
answer. -/
def expected (call : Call) (answer : Request → Head × Bytes) :
    Except String Unit → Except ProxyError Response
  | .error e => .error (.hyper e)
  | .ok () =>
    let (head, body) := answer (buildRequest call)
    .ok ⟨head.status, stripHopByHop head.headers, body⟩

/-- What the client, the network and the upstream may do to call `i`: its body is read with the
given outcome, it can connect, only connections from before refuse, and an answer comes from an
upstream that has the request. -/
def Answers (calls : ℕ → Call) (i n : ℕ) (answer : Request → Head × Bytes)
    (collected : Except String Unit) (s : State) : Act → Prop
  | .collect r => r = collected
  | .connect r => r = .ok ()
  | .handshake r => r = .ok ()
  | .send (.error _) => ∀ c, sender (s.pc i) = some c → c < n
  | .respond k resp =>
    ∀ x, s.exchanges[k]? = some x → x.received = true ∧ resp = (answer x.req).1
  | .body r => r = .ok (answer (buildRequest (calls i))).2
  | .cancel => False
  | _ => True

/-- The environment of call `i`. Connections from `n` on stay open, the others until they have
brought the upstream its request. Other calls put into the pool what they have read to the end. -/
def Answering (calls : ℕ → Call) (i n : ℕ) (answer : Request → Head × Bytes)
    (collected : Except String Unit) (s : State) : Event → Prop
  | .call j act =>
    if j = i then Answers calls i n answer collected s act
    else ReleasesComplete calls s (.call j act)
  | .close c => c < n ∧ ∀ x ∈ s.exchanges, x.call = i → x.conn = c → x.received = false
  | _ => True

theorem answering_own {s : State} {act : Act} (h : Answers calls i n answer collected s act) :
    Answering calls i n answer collected s (.call i act) := by
  simpa [Answering] using h

def CleanPool (s : State) (addr : String) : Prop :=
  ∀ c ∈ s.idle addr, s.isOpen c = true → s.outstanding c = 0

structure Begins (calls : ℕ → Call) (i n : ℕ) (s : State) : Prop where
  ownership : Ownership calls s
  absent : s.pc i = .absent
  unknown : ∀ x ∈ s.exchanges, x.call ≠ i
  opened : n = s.conns.length
  clean : CleanPool s (calls i).upstreamAddr

def NoExchange (i : ℕ) (xs : List Exchange) : Prop := ∀ x ∈ xs, x.call ≠ i

def Leads (i c : ℕ) (req : Request) (headed : Bool) (xs : List Exchange) : Prop :=
  ∃ pre x post, xs = pre ++ x :: post ∧ (x.call = i ∧ x.conn = c ∧ x.req = req) ∧
    (x.headed = headed ∧ (headed = true → x.received = true)) ∧
    (∀ y ∈ pre, y.call ≠ i ∧ y.conn ≠ c) ∧ ∀ y ∈ post, y.call ≠ i

variable {c : ℕ} {req : Request} {headed : Bool} {xs : List Exchange} {k : ℕ} {x y : Exchange}

theorem leads_of_sent (hno : NoExchange i xs) (hc : ∀ y ∈ xs, y.conn ≠ c) :
    Leads i c req false (xs ++ [⟨i, c, req, false, false⟩]) :=
  ⟨xs, _, [], rfl, ⟨rfl, rfl, rfl⟩, ⟨rfl, nofun⟩, fun y hy => ⟨hno y hy, hc y hy⟩, by simp⟩

theorem Leads.append (h : Leads i c req headed xs) (hy : y.call ≠ i) :
    Leads i c req headed (xs ++ [y]) := by
  obtain ⟨pre, x, post, rfl, hx, hh, hpre, hpost⟩ := h
  refine ⟨pre, x, post ++ [y], by simp, hx, hh, hpre, ?_⟩
  intro z hz
  rcases List.mem_append.mp hz with hz | hz
  · exact hpost z hz
  · rw [List.mem_singleton.mp hz]
    exact hy

theorem getElem?_cut {pre post : List Exchange} {z : Exchange}
    (h : (pre ++ z :: post)[k]? = some x) :
    (k < pre.length ∧ x ∈ pre) ∨ (k = pre.length ∧ x = z) ∨
      ∃ m, k = pre.length + (m + 1) ∧ x ∈ post := by
  rcases Nat.lt_trichotomy k pre.length with hlt | rfl | hgt
  · rw [List.getElem?_append_left hlt] at h
    exact Or.inl ⟨hlt, List.mem_of_getElem? h⟩
  · rw [List.getElem?_append_right (Nat.le_refl _), Nat.sub_self, List.getElem?_cons_zero] at h
    exact Or.inr (Or.inl ⟨rfl, (Option.some.inj h).symm⟩)
  · obtain ⟨m, rfl⟩ : ∃ m, k = pre.length + (m + 1) := ⟨k - pre.length - 1, by omega⟩
    rw [List.getElem?_append_right (by omega), Nat.add_sub_cancel_left,
      List.getElem?_cons_succ] at h
    exact Or.inr (Or.inr ⟨m, rfl, List.mem_of_getElem? h⟩)

theorem Leads.set_other (h : Leads i c req headed xs) (hk : xs[k]? = some x) (hx : x.call ≠ i)
    (hcall : y.call = x.call) (hconn : y.conn = x.conn) :
    Leads i c req headed (xs.set k y) := by
  obtain ⟨pre, z, post, rfl, hz, hh, hpre, hpost⟩ := h
  rcases getElem?_cut hk with ⟨hlt, hmem⟩ | ⟨_, rfl⟩ | ⟨m, rfl, hmem⟩
  · refine ⟨pre.set k y, z, post, List.set_append_left _ _ hlt, hz, hh, ?_, hpost⟩
    intro w hw
    rcases List.mem_or_eq_of_mem_set hw with hw | rfl
    · exact hpre w hw
    · rw [hcall, hconn]
      exact hpre x hmem
  · exact absurd hz.1 hx
  · refine ⟨pre, z, post.set m y, by simp, hz, hh, hpre, ?_⟩
    intro w hw
    rcases List.mem_or_eq_of_mem_set hw with hw | rfl
    · exact hpost w hw
    · rw [hcall]
      exact hx

theorem Leads.set_self (h : Leads i c req headed xs) (hk : xs[k]? = some x) (hx : x.call = i)
    (hy : y.call = x.call ∧ y.conn = x.conn ∧ y.req = x.req)
    (hh : y.headed = true → y.received = true) : Leads i c req y.headed (xs.set k y) := by
  obtain ⟨pre, z, post, rfl, ⟨hcall, hconn, hreq⟩, _, hpre, hpost⟩ := h
  rcases getElem?_cut hk with ⟨_, hmem⟩ | ⟨rfl, rfl⟩ | ⟨m, _, hmem⟩
  · exact absurd hx (hpre x hmem).1
  · exact ⟨pre, y, post, by simp, ⟨hy.1.trans hcall, hy.2.1.trans hconn, hy.2.2.trans hreq⟩,
      ⟨rfl, hh⟩, hpre, hpost⟩
  · exact absurd hx (hpost x hmem)

theorem Leads.unique (h : Leads i c req headed xs) (hk : xs[k]? = some x) (hx : x.call = i) :
    x.req = req ∧ x.headed = headed := by
  obtain ⟨pre, z, post, rfl, hz, hh, hpre, hpost⟩ := h
  rcases getElem?_cut hk with ⟨_, hmem⟩ | ⟨_, rfl⟩ | ⟨m, _, hmem⟩
  · exact absurd hx (hpre x hmem).1
  · exact ⟨hz.2.2, hh.1⟩
  · exact absurd hx (hpost x hmem)

theorem Leads.erase_other (h : Leads i c req headed xs) (hk : xs[k]? = some x) (hx : x.call ≠ i) :
    Leads i c req headed (xs.eraseIdx k) := by
  obtain ⟨pre, z, post, rfl, hz, hh, hpre, hpost⟩ := h
  rcases getElem?_cut hk with ⟨hlt, _⟩ | ⟨_, rfl⟩ | ⟨m, rfl, _⟩
  · exact ⟨pre.eraseIdx k, z, post, List.eraseIdx_append_of_lt_length hlt _, hz, hh,
      fun w hw => hpre w ((List.eraseIdx_sublist ..).subset hw), hpost⟩
  · exact absurd hz.1 hx
  · refine ⟨pre, z, post.eraseIdx m, ?_, hz, hh, hpre,
      fun w hw => hpost w ((List.eraseIdx_sublist ..).subset hw)⟩
    rw [List.eraseIdx_append_of_length_le (by omega), Nat.add_sub_cancel_left,
      List.eraseIdx_cons_succ]

theorem Leads.erase_self (h : Leads i c req headed xs) (hk : xs[k]? = some x) (hx : x.call = i) :
    NoExchange i (xs.eraseIdx k) := by
  obtain ⟨pre, z, post, rfl, _, hh, hpre, hpost⟩ := h
  rcases getElem?_cut hk with ⟨_, hmem⟩ | ⟨rfl, rfl⟩ | ⟨m, _, hmem⟩
  · exact absurd hx (hpre x hmem).1
  · intro w hw
    rw [List.eraseIdx_append_of_length_le (Nat.le_refl _), Nat.sub_self,
      List.eraseIdx_cons_zero] at hw
    rcases List.mem_append.mp hw with hw | hw
    · exact (hpre w hw).1
    · exact hpost w hw
  · exact absurd hx (hpost x hmem)

theorem Leads.filter_other {d : ℕ} (h : Leads i c req headed xs) (hd : d ≠ c) :
    Leads i c req headed (xs.filter fun x => x.conn != d) := by
  obtain ⟨pre, z, post, rfl, hz, hh, hpre, hpost⟩ := h
  refine ⟨pre.filter fun x => x.conn != d, z, post.filter fun x => x.conn != d, ?_, hz, hh,
    fun w hw => hpre w (List.mem_of_mem_filter hw), fun w hw => hpost w (List.mem_of_mem_filter hw)⟩
  rw [List.filter_append, List.filter_cons_of_pos]
  simpa [hz.2.1] using hd.symm

theorem Leads.filter_self (h : Leads i c req headed xs) :
    NoExchange i (xs.filter fun x => x.conn != c) := by
  obtain ⟨pre, z, post, rfl, hz, _, hpre, hpost⟩ := h
  intro w hw hcall
  obtain ⟨hw, hne⟩ := List.mem_filter.mp hw
  rcases List.mem_append.mp hw with hw | hw
  · exact (hpre w hw).1 hcall
  · rcases List.mem_cons.mp hw with rfl | hw
    · simp [hz.2.1] at hne
    · exact hpost w hw hcall

theorem Leads.mem (h : Leads i c req headed xs) : ∃ x ∈ xs,
    (x.call = i ∧ x.conn = c ∧ x.req = req) ∧ x.headed = headed ∧
      (headed = true → x.received = true) := by
  obtain ⟨pre, x, post, rfl, hx, hh, _, _⟩ := h
  exact ⟨x, by simp, hx, hh⟩

theorem Leads.first {s : State} (h : Leads i c req headed s.exchanges) :
    ∃ k x, s.first k = some x ∧ (x.call = i ∧ x.conn = c ∧ x.req = req) ∧
      x.headed = headed ∧ (headed = true → x.received = true) := by
  obtain ⟨pre, x, post, hxs, hx, hh, hpre, _⟩ := h
  refine ⟨pre.length, x, ?_, hx, hh⟩
  simp only [State.first, hxs, List.take_left', Option.filter_eq_some_iff]
  refine ⟨by simp, ?_⟩
  simp only [List.all_eq_true, bne_iff_ne]
  intro y hy
  rw [hx.2.1]
  exact (hpre y hy).2

theorem NoExchange.of_mem {ys : List Exchange} (h : NoExchange i xs)
    (hys : ∀ y ∈ ys, ∃ x ∈ xs, x.call = y.call) : NoExchange i ys := by
  intro y hy
  obtain ⟨x, hx, hcall⟩ := hys y hy
  rw [← hcall]
  exact h x hx

def Built (call : Call) (collected : Except String Unit) (req : Request) : Prop :=
  collected = .ok () ∧ req = buildRequest call

def Place (calls : ℕ → Call) (i n : ℕ) (answer : Request → Head × Bytes)
    (collected : Except String Unit) (s : State) : Pc → Prop
  | .absent | .collecting => NoExchange i s.exchanges ∧ CleanPool s (calls i).upstreamAddr
  | .acquiring req =>
    Built (calls i) collected req ∧ NoExchange i s.exchanges ∧
      CleanPool s (calls i).upstreamAddr
  | .connecting req _ | .handshaking req _ =>
    Built (calls i) collected req ∧ NoExchange i s.exchanges
  | .sending req c retry =>
    Built (calls i) collected req ∧ NoExchange i s.exchanges ∧ (retry = true → n ≤ c) ∧
      (s.isOpen c = true → s.outstanding c = 0)
  | .awaiting req c retry =>
    Built (calls i) collected req ∧ (retry = true → n ≤ c) ∧
      ((s.isOpen c = true ∧ Leads i c req false s.exchanges) ∨
        (s.isOpen c = false ∧ NoExchange i s.exchanges))
  | .releasing c resp | .reading c resp =>
    (∃ req, Built (calls i) collected req ∧ resp = (answer req).1 ∧
      (NoExchange i s.exchanges ∨ Leads i c req true s.exchanges))
  | .done r => r = expected (calls i) answer collected

structure Untouched (i : ℕ) (addr : String) (s t : State) : Prop where
  none : NoExchange i s.exchanges → NoExchange i t.exchanges
  leads : ∀ c req headed, Leads i c req headed s.exchanges → Leads i c req headed t.exchanges
  isOpen : ∀ c, sender (s.pc i) = some c → t.isOpen c = s.isOpen c
  outstanding : ∀ c, sender (s.pc i) = some c → t.outstanding c ≤ s.outstanding c
  clean : CleanPool s addr → CleanPool t addr

theorem Place.frame {s t : State} (h : Place calls i n answer collected s (s.pc i))
    (ht : Untouched i (calls i).upstreamAddr s t) :
    Place calls i n answer collected t (s.pc i) := by
  cases hp : s.pc i with
  | absent =>
    rw [hp] at h
    exact ⟨ht.none h.1, ht.clean h.2⟩
  | collecting =>
    rw [hp] at h
    exact ⟨ht.none h.1, ht.clean h.2⟩
  | acquiring req =>
    rw [hp] at h
    exact ⟨h.1, ht.none h.2.1, ht.clean h.2.2⟩
  | connecting req retry =>
    rw [hp] at h
    exact ⟨h.1, ht.none h.2⟩
  | handshaking req retry =>
    rw [hp] at h
    exact ⟨h.1, ht.none h.2⟩
  | sending req c retry =>
    have hsender : sender (s.pc i) = some c := by rw [hp]; rfl
    rw [hp] at h
    obtain ⟨hreq, hno, hretry, hout⟩ := h
    refine ⟨hreq, ht.none hno, hretry, fun ho => ?_⟩
    rw [ht.isOpen c hsender] at ho
    have hz := hout ho
    have hle := ht.outstanding c hsender
    omega
  | awaiting req c retry =>
    have hsender : sender (s.pc i) = some c := by rw [hp]; rfl
    rw [hp] at h
    obtain ⟨hreq, hretry, hx⟩ := h
    refine ⟨hreq, hretry, ?_⟩
    rw [ht.isOpen c hsender]
    rcases hx with ⟨ho, hleads⟩ | ⟨ho, hno⟩
    · exact Or.inl ⟨ho, ht.leads _ _ _ hleads⟩
    · exact Or.inr ⟨ho, ht.none hno⟩
  | releasing c resp =>
    rw [hp] at h
    obtain ⟨req, hreq, hresp, hx⟩ := h
    exact ⟨req, hreq, hresp, hx.imp ht.none (ht.leads _ _ _)⟩
  | reading c resp =>
    rw [hp] at h
    obtain ⟨req, hreq, hresp, hx⟩ := h
    exact ⟨req, hreq, hresp, hx.imp ht.none (ht.leads _ _ _)⟩
  | done r =>
    rw [hp] at h
    exact h

theorem isOpen_connected_lt {s : State} {a : String} {c : ℕ} (h : c < s.conns.length) :
    (s.connected a).isOpen c = s.isOpen c := by
  simp [State.isOpen, State.connected, List.getElem?_append_left h]

theorem isOpen_closed {s : State} {c d : ℕ} {conn : Conn} (h : s.conns[d]? = some conn)
    (xs : List Exchange) :
    ({ s with
      conns := s.conns.set d { conn with isOpen := false }
      exchanges := xs } : State).isOpen c = if c = d then false else s.isOpen c := by
  by_cases hd : c = d
  · subst hd
    obtain ⟨hlt, _⟩ := List.getElem?_eq_some_iff.mp h
    simp [State.isOpen, List.getElem?_set_self hlt]
  · simp [State.isOpen, hd, List.getElem?_set_ne (Ne.symm hd)]

theorem untouched_call {s t : State} {j : ℕ} {act : Act} (ho : Ownership calls s) (hj : j ≠ i)
    (hc : ReleasesComplete calls s (.call j act)) (h : CallStep (calls j) s j act t) :
    Untouched i (calls i).upstreamAddr s t := by
  cases h with
  | move hm => exact ⟨id, fun _ _ _ => id, fun _ _ => rfl, fun _ _ => Nat.le_refl _, id⟩
  | failed req d retry e hp hclosed =>
    exact ⟨id, fun _ _ _ => id, fun _ _ => rfl, fun _ _ => Nat.le_refl _, id⟩
  | reuse req d hp hl =>
    refine ⟨id, fun _ _ _ => id, fun _ _ => rfl, fun _ _ => Nat.le_refl _, ?_⟩
    intro hclean c hmem
    refine hclean c ?_
    by_cases ha : (calls i).upstreamAddr = (calls j).upstreamAddr
    · rw [ha] at hmem ⊢
      simp only [goto_idle, State.setIdle, Function.update_self] at hmem
      exact (List.dropLast_sublist _).subset hmem
    · simpa [State.setIdle, Function.update_of_ne ha] using hmem
  | opened req retry hp =>
    refine ⟨id, fun _ _ _ => id, fun c hs => isOpen_connected_lt (ho.senderKnown hs),
      fun _ _ => Nat.le_refl _, ?_⟩
    intro hclean c hmem hopen
    exact hclean c hmem (by rwa [← isOpen_connected_lt (ho.idleKnown hmem)])
  | sent req d retry hp hopen =>
    have hd : sender (s.pc j) = some d := by rw [hp]; rfl
    have hadd : ∀ c, c ≠ d → ((s.setExchanges (s.exchanges ++ [⟨j, d, req, false, false⟩])).goto j
        (.awaiting req d retry)).outstanding c = s.outstanding c := by
      intro c hne
      simp [State.outstanding, List.countP_append, Ne.symm hne]
    refine ⟨?_, fun _ _ _ hl => hl.append hj, fun _ _ => rfl, ?_, ?_⟩
    · intro hno y hy
      rcases List.mem_append.mp hy with hy | hy
      · exact hno y hy
      · rw [List.mem_singleton.mp hy]
        exact hj
    · intro c hs
      refine Nat.le_of_eq (hadd c ?_)
      rintro rfl
      exact hj (ho.unique j i c hd hs)
    · intro hclean c hmem hopen
      rw [hadd c ?_]
      · exact hclean c hmem hopen
      · rintro rfl
        exact ho.notIdle j c hd _ hmem
  | answered req retry k x resp hp hf hx =>
    have hk := first_getElem hf
    refine ⟨?_, ?_, fun _ _ => rfl, ?_, ?_⟩
    · intro hno
      exact hno.of_mem fun y hy => by
        obtain ⟨w, hw, hcall, _⟩ := mem_set_cases hk (by rfl) (by rfl) hy
        exact ⟨w, hw, hcall⟩
    · intro c req headed hl
      exact hl.set_other hk (by rw [hx]; exact hj) rfl rfl
    · intro c _
      exact Nat.le_of_eq (outstanding_set hk (by rfl) c)
    · intro hclean c hmem hopen
      rw [← hclean c hmem hopen]
      exact outstanding_set hk (by rfl) c
  | kept d resp hp hroom =>
    refine ⟨id, fun _ _ _ => id, fun _ _ => rfl, fun _ _ => Nat.le_refl _, ?_⟩
    intro hclean c hmem hopen
    by_cases ha : (calls i).upstreamAddr = (calls j).upstreamAddr
    · rw [ha] at hmem hclean
      simp only [goto_idle, State.setIdle, Function.update_self, List.mem_append,
        List.mem_singleton] at hmem
      rcases hmem with hmem | rfl
      · exact hclean c hmem hopen
      · exact hc c resp hp hroom
    · simp only [goto_idle, State.setIdle, Function.update_of_ne ha] at hmem
      exact hclean c hmem hopen

theorem untouched_receive {s : State} (hk : s.exchanges[k]? = some x) {addr : String}
    (ds : List Delivery) :
    Untouched i addr s
      { s with exchanges := s.exchanges.set k { x with received := true }, delivered := ds } := by
  have hout := fun c => outstanding_set (y := { x with received := true }) hk rfl c
  refine ⟨?_, ?_, fun _ _ => rfl, fun c _ => Nat.le_of_eq (hout c), ?_⟩
  · intro hno
    exact hno.of_mem fun y hy => by
      obtain ⟨w, hw, hcall, _⟩ := mem_set_cases hk (by rfl) (by rfl) hy
      exact ⟨w, hw, hcall⟩
  · intro c req headed hl
    by_cases hx : x.call = i
    · rw [← (hl.unique hk hx).2]
      exact hl.set_self (y := { x with received := true }) hk hx ⟨rfl, rfl, rfl⟩ fun _ => rfl
    · exact hl.set_other hk hx rfl rfl
  · intro hclean c hmem hopen
    rw [← hclean c hmem hopen]
    exact hout c

theorem place_drain {s : State} (h : Place calls i n answer collected s (s.pc i))
    (hf : s.first k = some x) (hh : x.headed = true) :
    Place calls i n answer collected (s.setExchanges (s.exchanges.eraseIdx k)) (s.pc i) := by
  have hk := first_getElem hf
  have hsub : (s.exchanges.eraseIdx k).Sublist s.exchanges := List.eraseIdx_sublist ..
  have hno : NoExchange i s.exchanges → NoExchange i (s.exchanges.eraseIdx k) :=
    fun hno y hy => hno y (hsub.subset hy)
  have hclean : CleanPool s (calls i).upstreamAddr →
      CleanPool (s.setExchanges (s.exchanges.eraseIdx k)) (calls i).upstreamAddr := by
    intro hclean c hmem hopen
    have hz := hclean c hmem hopen
    have hle : (s.exchanges.eraseIdx k).countP (fun y => y.conn == c) ≤ s.outstanding c :=
      hsub.countP_le
    simp only [State.outstanding, setExchanges_exchanges] at hz hle ⊢
    omega
  by_cases hx : x.call = i
  · have own : ∀ {P : Prop}, NoExchange i s.exchanges → P :=
      fun hno => absurd hx (hno x (List.mem_of_getElem? hk))
    cases hp : s.pc i with
    | releasing c resp =>
      rw [hp] at h
      obtain ⟨req, hreq, hresp, hnone | hl⟩ := h
      · exact own hnone
      · exact ⟨req, hreq, hresp, Or.inl (hl.erase_self hk hx)⟩
    | reading c resp =>
      rw [hp] at h
      obtain ⟨req, hreq, hresp, hnone | hl⟩ := h
      · exact own hnone
      · exact ⟨req, hreq, hresp, Or.inl (hl.erase_self hk hx)⟩
    | awaiting req c retry =>
      rw [hp] at h
      obtain ⟨_, _, ⟨_, hl⟩ | ⟨_, hnone⟩⟩ := h
      · rw [(hl.unique hk hx).2] at hh
        cases hh
      · exact own hnone
    | absent => rw [hp] at h; exact own h.1
    | collecting => rw [hp] at h; exact own h.1
    | acquiring req => rw [hp] at h; exact own h.2.1
    | connecting req retry => rw [hp] at h; exact own h.2
    | handshaking req retry => rw [hp] at h; exact own h.2
    | sending req c retry => rw [hp] at h; exact own h.2.1
    | done r => rw [hp] at h; exact h
  · exact h.frame ⟨hno, fun _ _ _ hl => hl.erase_other hk hx, fun _ _ => rfl,
      fun _ _ => hsub.countP_le, hclean⟩

theorem place_close {s : State} {d : ℕ} {conn : Conn}
    (h : Place calls i n answer collected s (s.pc i)) (hd : s.conns[d]? = some conn)
    (hc : ∀ x ∈ s.exchanges, x.call = i → x.conn = d → x.received = false) :
    Place calls i n answer collected
      { s with
        conns := s.conns.set d { conn with isOpen := false }
        exchanges := s.exchanges.filter fun x => x.conn != d } (s.pc i) := by
  have hopen := fun c =>
    isOpen_closed (s := s) (c := c) hd (s.exchanges.filter fun x => x.conn != d)
  have hno : NoExchange i s.exchanges → NoExchange i (s.exchanges.filter fun x => x.conn != d) :=
    fun hno y hy => hno y (List.mem_of_mem_filter hy)
  have quiet : ∀ c, (s.isOpen c = true → s.outstanding c = 0) →
      (if c = d then false else s.isOpen c) = true →
      (s.exchanges.filter fun x => x.conn != d).countP (fun x => x.conn == c) = 0 := by
    intro c hz ho
    have hle : (s.exchanges.filter fun x => x.conn != d).countP (fun x => x.conn == c) ≤
        s.outstanding c := List.filter_sublist.countP_le
    split at ho
    · cases ho
    · have hzero := hz ho
      omega
  have hclean : CleanPool s (calls i).upstreamAddr →
      CleanPool { s with
        conns := s.conns.set d { conn with isOpen := false }
        exchanges := s.exchanges.filter fun x => x.conn != d } (calls i).upstreamAddr := by
    intro hclean c hmem ho
    rw [hopen] at ho
    exact quiet c (hclean c hmem) ho
  -- past the response head the upstream has received the request, and does not close
  have headed : ∀ {c req}, NoExchange i s.exchanges ∨ Leads i c req true s.exchanges →
      NoExchange i (s.exchanges.filter fun x => x.conn != d) ∨
        Leads i c req true (s.exchanges.filter fun x => x.conn != d) := by
    rintro c req (hnone | hl)
    · exact Or.inl (hno hnone)
    · refine Or.inr (hl.filter_other ?_)
      rintro rfl
      obtain ⟨x, hx, ⟨hcall, hconn, _⟩, _, hreceived⟩ := hl.mem
      have hnot := hc x hx hcall hconn
      rw [hreceived rfl] at hnot
      cases hnot
  cases hp : s.pc i with
  | absent => rw [hp] at h; exact ⟨hno h.1, hclean h.2⟩
  | collecting => rw [hp] at h; exact ⟨hno h.1, hclean h.2⟩
  | acquiring req => rw [hp] at h; exact ⟨h.1, hno h.2.1, hclean h.2.2⟩
  | connecting req retry => rw [hp] at h; exact ⟨h.1, hno h.2⟩
  | handshaking req retry => rw [hp] at h; exact ⟨h.1, hno h.2⟩
  | sending req c retry =>
    rw [hp] at h
    refine ⟨h.1, hno h.2.1, h.2.2.1, fun ho => ?_⟩
    rw [hopen] at ho
    exact quiet c h.2.2.2 ho
  | awaiting req c retry =>
    rw [hp] at h
    obtain ⟨hreq, hretry, hx⟩ := h
    refine ⟨hreq, hretry, ?_⟩
    rw [hopen]
    by_cases hcd : c = d
    · subst hcd
      refine Or.inr ⟨if_pos rfl, ?_⟩
      rcases hx with ⟨_, hl⟩ | ⟨_, hnone⟩
      · exact hl.filter_self
      · exact hno hnone
    · rw [if_neg hcd]
      exact hx.imp (fun ⟨ho, hl⟩ => ⟨ho, hl.filter_other (Ne.symm hcd)⟩)
        fun ⟨ho, hnone⟩ => ⟨ho, hno hnone⟩
  | releasing c resp =>
    rw [hp] at h
    obtain ⟨req, hreq, hresp, hx⟩ := h
    exact ⟨req, hreq, hresp, headed hx⟩
  | reading c resp =>
    rw [hp] at h
    obtain ⟨req, hreq, hresp, hx⟩ := h
    exact ⟨req, hreq, hresp, headed hx⟩
  | done r => rw [hp] at h; exact h

structure Serving (calls : ℕ → Call) (i n : ℕ) (answer : Request → Head × Bytes)
    (collected : Except String Unit) (s : State) : Prop where
  ownership : Ownership calls s
  length : n ≤ s.conns.length
  fresh : ∀ c, n ≤ c → c < s.conns.length → s.isOpen c = true
  place : Place calls i n answer collected s (s.pc i)

theorem Serving.old {s : State} (h : Serving calls i n answer collected s)
    (hc : sender (s.pc i) = some c) (ho : s.isOpen c = false) : c < n := by
  by_contra hn
  have hopen := h.fresh c (by omega) (h.ownership.senderKnown hc)
  rw [ho] at hopen
  cases hopen

theorem fresh_step {s t : State} {e : Event}
    (hf : ∀ c, n ≤ c → c < s.conns.length → s.isOpen c = true)
    (he : Answering calls i n answer collected s e) (h : Step calls s e t) :
    ∀ c, n ≤ c → c < t.conns.length → t.isOpen c = true := by
  intro c hn hlt
  cases h with
  | call j act _ h =>
    cases h with
    | opened req retry hp =>
      simp only [goto_conns, State.connected, List.length_append, List.length_singleton] at hlt
      by_cases hc : c < s.conns.length
      · exact (isOpen_connected_lt hc).trans (hf c hn hc)
      · obtain rfl : c = s.conns.length := by omega
        simp [State.isOpen, State.connected]
    | _ => exact hf c hn hlt
  | close d conn hd =>
    rw [isOpen_closed hd, if_neg]
    · exact hf c hn (by simpa using hlt)
    · rintro rfl
      exact absurd he.1 (by omega)
  | _ => exact hf c hn hlt

theorem place_retry {t : State} {retry : Bool} {e : String}
    (hreq : Built (calls i) collected req) (hx : NoExchange i t.exchanges)
    (hretry : retry = true → n ≤ c) (hold : c < n) :
    Place calls i n answer collected t (afterSendError req retry e) := by
  cases retry with
  | false => exact ⟨hreq, hx⟩
  | true =>
    have hle := hretry rfl
    omega

theorem place_own {s t : State} {act : Act} (hs : Serving calls i n answer collected s)
    (hc : Answers calls i n answer collected s act) (h : CallStep (calls i) s i act t) :
    Place calls i n answer collected t (t.pc i) := by
  have hplace := hs.place
  cases h with
  | move hm =>
    rw [goto_pc_self]
    generalize hp : s.pc i = p at hm hplace
    cases hm with
    | start => exact hplace
    | collectError e =>
      exact congrArg (expected (calls i) answer) hc
    | collected => exact ⟨⟨hc.symm, rfl⟩, hplace.1, hplace.2⟩
    | miss req _ => exact ⟨hplace.1, hplace.2.1⟩
    | connectError req retry e => cases hc
    | connected req retry => exact hplace
    | handshakeError req retry e => cases hc
    | refused req c retry e =>
      have hlt : c < n := hc c (by rw [hp]; rfl)
      exact place_retry hplace.1 hplace.2.1 hplace.2.2.1 hlt
    | full c resp _ => exact hplace
    | bodyError c resp e _ => cases hc
    | finish c resp bytes hnone =>
      obtain ⟨req, ⟨hcoll, rfl⟩, rfl, _⟩ := hplace
      show _ = _
      rw [hcoll, Except.ok.inj hc]
      rfl
    | timeout _ _ _ => exact hc.elim
  | reuse req c hp hl =>
    rw [hp] at hplace
    obtain ⟨hreq, hno, hclean⟩ := hplace
    rw [goto_pc_self]
    exact ⟨hreq, hno, nofun, hclean c (List.mem_of_getLast? hl)⟩
  | opened req retry hp =>
    rw [hp] at hplace
    rw [goto_pc_self]
    refine ⟨hplace.1, hplace.2, fun _ => hs.length, fun _ => ?_⟩
    exact outstanding_zero.mpr fun x hx => Nat.ne_of_lt (hs.ownership.known x hx)
  | sent req c retry hp ho =>
    rw [hp] at hplace
    obtain ⟨hreq, hno, hretry, hout⟩ := hplace
    rw [goto_pc_self]
    exact ⟨hreq, hretry, Or.inl ⟨ho, leads_of_sent hno (outstanding_zero.mp (hout ho))⟩⟩
  | failed req c retry e hp ho =>
    have hlt := hs.old (c := c) (by rw [hp]; rfl) ho
    rw [hp] at hplace
    obtain ⟨hreq, hretry, ⟨hopen, _⟩ | ⟨_, hno⟩⟩ := hplace
    · rw [ho] at hopen
      cases hopen
    · rw [goto_pc_self]
      exact place_retry hreq hno hretry hlt
  | answered req retry k x resp hp hf hx =>
    have hk := first_getElem hf
    obtain ⟨hreceived, rfl⟩ := hc x hk
    rw [hp] at hplace
    obtain ⟨hreq, _, ⟨_, hl⟩ | ⟨_, hno⟩⟩ := hplace
    · rw [goto_pc_self]
      refine ⟨req, hreq, by rw [(hl.unique hk hx).1], Or.inr ?_⟩
      exact hl.set_self (y := { x with headed := true }) hk hx ⟨rfl, rfl, rfl⟩ fun _ => hreceived
    · exact absurd hx (hno x (List.mem_of_getElem? hk))
  | kept c resp hp _ =>
    rw [hp] at hplace
    rw [goto_pc_self]
    exact hplace

theorem serving_step {s t : State} {e : Event} (hs : Serving calls i n answer collected s)
    (he : Answering calls i n answer collected s e) (h : Step calls s e t) :
    Serving calls i n answer collected t := by
  have hlen := conns_length_step h
  refine ⟨ownership_step hs.ownership h, Nat.le_trans hs.length hlen, fresh_step hs.fresh he h, ?_⟩
  cases h with
  | call j act _ h =>
    by_cases hj : j = i
    · subst hj
      exact place_own hs (by simpa [Answering] using he) h
    · have hpc : t.pc i = s.pc i := by
        cases h <;> exact goto_pc_of_ne _ _ (Ne.symm hj)
      rw [hpc]
      exact hs.place.frame (untouched_call hs.ownership hj (by simpa [Answering, hj] using he) h)
  | receive k x hk hr => exact hs.place.frame (untouched_receive hk _)
  | drain k x hf hh => exact place_drain hs.place hf hh
  | close d conn hd => exact place_close hs.place hd he.2

theorem Begins.serving {s : State} (h : Begins calls i n s) :
    Serving calls i n answer collected s := by
  refine ⟨h.ownership, Nat.le_of_eq h.opened, ?_, ?_⟩
  · intro c hn hlt
    have heq := h.opened
    omega
  · rw [h.absent]
    exact ⟨h.unknown, h.clean⟩

def stepsLeft : Pc → ℕ
  | .absent => 15
  | .collecting => 14
  | .acquiring _ => 13
  | .connecting _ false => 12
  | .handshaking _ false => 11
  | .sending _ _ false => 10
  | .awaiting _ _ false => 9
  | .connecting _ true => 8
  | .handshaking _ true => 7
  | .sending _ _ true => 6
  | .awaiting _ _ true => 5
  | .releasing _ _ => 4
  | .reading _ _ => 3
  | .done _ => 0

def work (i : ℕ) (s : State) : ℕ :=
  3 * stepsLeft (s.pc i) + s.exchanges.countP (fun x => x.call == i) +
    s.exchanges.countP fun x => x.call == i && !x.received

theorem work_goto {s t : State} {pc : Pc} (ht : t.pc i = pc) (hx : t.exchanges = s.exchanges)
    (hlt : stepsLeft pc < stepsLeft (s.pc i)) : work i t < work i s := by
  simp only [work, ht, hx]
  omega

def CanStep (calls : ℕ → Call) (i n : ℕ) (answer : Request → Head × Bytes)
    (collected : Except String Unit) (s : State) : Prop :=
  ∃ e t, next calls s e = some t ∧ Answering calls i n answer collected s e ∧ work i t < work i s

theorem canStep_call {s t : State} {act : Act} (h : callStep (calls i) s i act = some t)
    (ha : Answers calls i n answer collected s act) (hw : work i t < work i s) :
    CanStep calls i n answer collected s :=
  ⟨.call i act, t, h, answering_own ha, hw⟩

theorem canStep_goto {s : State} {act : Act} {pc : Pc}
    (h : callStep (calls i) s i act = some (s.goto i pc))
    (ha : Answers calls i n answer collected s act) (hlt : stepsLeft pc < stepsLeft (s.pc i)) :
    CanStep calls i n answer collected s :=
  canStep_call h ha (work_goto (goto_pc_self ..) rfl hlt)

theorem canStep_acquire {s : State} (hp : s.pc i = .acquiring req) :
    CanStep calls i n answer collected s := by
  have hstep : callStep (calls i) s i .acquire =
      some (acquireStep s i (calls i).upstreamAddr req) := by simp only [callStep, hp]
  refine canStep_call hstep trivial ?_
  unfold acquireStep
  split
  · exact work_goto (goto_pc_self ..) rfl (by simp [hp, stepsLeft])
  · exact work_goto (goto_pc_self ..) rfl (by simp [hp, stepsLeft])

theorem canStep_send {s : State} {retry : Bool} (hs : Serving calls i n answer collected s)
    (hp : s.pc i = .sending req c retry) : CanStep calls i n answer collected s := by
  cases ho : s.isOpen c with
  | true =>
    have hstep : callStep (calls i) s i (.send (.ok ())) = some ((s.setExchanges
        (s.exchanges ++ [⟨i, c, req, false, false⟩])).goto i (.awaiting req c retry)) := by
      have hplace := hs.place
      rw [hp] at hplace
      simp [callStep, hp, ho, hplace.2.2.2 ho]
    refine canStep_call hstep trivial ?_
    cases retry <;> simp [work, hp, stepsLeft, List.countP_append] <;> omega
  | false =>
    have hlt := hs.old (c := c) (by rw [hp]; rfl) ho
    have hplace := hs.place
    rw [hp] at hplace
    have hstep : callStep (calls i) s i (.send (.error "")) =
        some (s.goto i (afterSendError req retry "")) := by simp [callStep, hp]
    refine canStep_goto hstep ?_ ?_
    · intro d hd
      rw [hp] at hd
      cases hd
      exact hlt
    · cases retry with
      | false => simp [hp, stepsLeft, afterSendError]
      | true => exact absurd (hplace.2.2.1 rfl) (by omega)

theorem canStep_await {s : State} {retry : Bool} (hs : Serving calls i n answer collected s)
    (hp : s.pc i = .awaiting req c retry) : CanStep calls i n answer collected s := by
  have hplace := hs.place
  rw [hp] at hplace
  obtain ⟨_, hretry, ⟨ho, hl⟩ | ⟨ho, hno⟩⟩ := hplace
  · obtain ⟨k, x, hf, ⟨hcall, hconn, _⟩, _, _⟩ := hl.first
    have hk := first_getElem hf
    have hmine := countP_set_add hk fun y => y.call == i
    have hwait := countP_set_add hk fun y => y.call == i && !y.received
    cases hr : x.received with
    | false =>
      -- the upstream has not received the request yet
      refine ⟨.receive k, _, by simp only [next, hk, hr]; rfl, trivial, ?_⟩
      have hm := hmine { x with received := true }
      have hw := hwait { x with received := true }
      simp only [work, hcall, hr] at hm hw ⊢
      simp at hm hw
      omega
    | true =>
      have hstep : callStep (calls i) s i (.respond k (answer x.req).1) =
          some ((s.setExchanges (s.exchanges.set k { x with headed := true })).goto i
            (.releasing c (answer x.req).1)) := by simp [callStep, hp, hf, hcall, hconn]
      refine canStep_call hstep ?_ ?_
      · intro y hy
        obtain rfl := Option.some.inj (hk.symm.trans hy)
        exact ⟨hr, rfl⟩
      · have hm := Nat.add_right_cancel (hmine { x with headed := true })
        have hw := Nat.add_right_cancel (hwait { x with headed := true })
        cases retry <;> simp only [work, hp, stepsLeft, goto_pc_self, goto_exchanges,
          setExchanges_exchanges, hm, hw] <;> omega
  · have hlt := hs.old (c := c) (by rw [hp]; rfl) ho
    have hstep : callStep (calls i) s i (.fail "") =
        some (s.goto i (afterSendError req retry "")) := by
      simp [callStep, hp, ho]
    refine canStep_goto hstep trivial ?_
    cases retry with
    | false => simp [hp, stepsLeft, afterSendError]
    | true => exact absurd (hretry rfl) (by omega)

theorem canStep_read {s : State} {resp : Head} (hs : Serving calls i n answer collected s)
    (hp : s.pc i = .reading c resp) : CanStep calls i n answer collected s := by
  have hplace := hs.place
  rw [hp] at hplace
  obtain ⟨_, _, _, hno | hl⟩ := hplace
  · have hstep : callStep (calls i) s i (.body (.ok (answer (buildRequest (calls i))).2)) =
        some (s.goto i (.done (.ok ⟨resp.status, stripHopByHop resp.headers,
          (answer (buildRequest (calls i))).2⟩))) := by
      simp only [callStep, hp]
      rw [if_neg]
      simp only [List.any_eq_true, Bool.and_eq_true, beq_iff_eq, not_exists, not_and]
      intro x hx hcall
      exact absurd hcall (hno x hx)
    exact canStep_goto hstep rfl (by simp [hp, stepsLeft])
  · obtain ⟨k, x, hf, ⟨hcall, _, _⟩, hh, _⟩ := hl.first
    have hk := first_getElem hf
    refine ⟨.drain k, _, by simp only [next, hf, hh]; rfl, trivial, ?_⟩
    have hnone := hl.erase_self hk hcall
    have hpos : 0 < s.exchanges.countP fun y => y.call == i :=
      List.countP_pos_iff.mpr ⟨x, List.mem_of_getElem? hk, by simp [hcall]⟩
    have hzero : (s.exchanges.eraseIdx k).countP (fun y => y.call == i) = 0 :=
      List.countP_eq_zero.mpr fun y hy => by simpa using hnone y hy
    have hle : (s.exchanges.eraseIdx k).countP (fun y => y.call == i && !y.received) ≤
        s.exchanges.countP fun y => y.call == i && !y.received :=
      (List.eraseIdx_sublist ..).countP_le
    simp only [work, setExchanges_pc, setExchanges_exchanges]
    omega

theorem canStep {s : State} (hs : Serving calls i n answer collected s)
    (hd : ∀ r, s.pc i ≠ .done r) : CanStep calls i n answer collected s := by
  cases hp : s.pc i with
  | absent =>
    have hstep : callStep (calls i) s i .start = some (s.goto i .collecting) := by
      simp only [callStep, hp]
    exact canStep_goto hstep trivial (by simp [hp, stepsLeft])
  | collecting =>
    cases hc : collected with
    | error e =>
      have hstep : callStep (calls i) s i (.collect (.error e)) =
          some (s.goto i (.done (.error (.hyper e)))) := by simp only [callStep, hp]
      exact canStep_goto hstep rfl (by simp [hp, stepsLeft])
    | ok u =>
      have hstep : callStep (calls i) s i (.collect (.ok ())) =
          some (s.goto i (.acquiring (buildRequest (calls i)))) := by simp only [callStep, hp]
      exact canStep_goto hstep rfl (by simp [hp, stepsLeft])
  | acquiring req => exact canStep_acquire hp
  | connecting req retry =>
    have hstep : callStep (calls i) s i (.connect (.ok ())) =
        some (s.goto i (.handshaking req retry)) := by simp only [callStep, hp]
    refine canStep_goto hstep rfl ?_
    cases retry <;> simp [hp, stepsLeft]
  | handshaking req retry =>
    have hstep : callStep (calls i) s i (.handshake (.ok ())) =
        some ((s.connected (calls i).upstreamAddr).goto i (.sending req s.conns.length retry)) := by
      simp only [callStep, hp]
    refine canStep_call hstep rfl (work_goto (goto_pc_self ..) rfl ?_)
    cases retry <;> simp [hp, stepsLeft]
  | sending req c retry => exact canStep_send hs hp
  | awaiting req c retry => exact canStep_await hs hp
  | releasing c resp =>
    have hstep : callStep (calls i) s i .release =
        some (releaseStep s i (calls i).upstreamAddr c resp) := by simp only [callStep, hp]
    refine canStep_call hstep trivial ?_
    unfold releaseStep
    split
    · exact work_goto (goto_pc_self ..) rfl (by simp [hp, stepsLeft])
    · exact work_goto (goto_pc_self ..) rfl (by simp [hp, stepsLeft])
  | reading c resp => exact canStep_read hs hp
  | done r => exact absurd hp (hd r)

def Returns (calls : ℕ → Call) (i n : ℕ) (answer : Request → Head × Bytes)
    (collected : Except String Unit) (u : State) : Prop :=
  ∃ tr v, Run (next calls) u tr v ∧ Obeys (Answering calls i n answer collected) tr ∧
    v.pc i = .done (expected (calls i) answer collected)

theorem Serving.returns {s : State} (hs : Serving calls i n answer collected s) :
    Returns calls i n answer collected s := by
  obtain ⟨tr, u, hr, ho, hu, r, hd⟩ := reaches_of_rank (G := fun s => ∃ r, s.pc i = .done r)
    (C := Answering calls i n answer collected) (work i) (fun s hs hg => by
      obtain ⟨e, t, hn, ha, hw⟩ := canStep hs (not_exists.mp hg)
      exact ⟨e, t, hn, ha, serving_step hs ha (step_of_next hn), hw⟩) hs
  refine ⟨tr, u, hr, ho, ?_⟩
  have hplace := hu.place
  rw [hd] at hplace
  rw [hd, show r = _ from hplace]

/-- A call on any two pools, an empty one or one full of stale connections: it can return at any
time, it returns the same, and no connection on which a send failed is in a pool again. -/
theorem pooling_invisible (calls : ℕ → Call) (i : ℕ) (answer : Request → Head × Bytes)
    (collected : Except String Unit) {n n₀ : ℕ} {s s₀ u u₀ : State}
    {tr tr₀ : List (State × Event)} (hs : Begins calls i n s) (hs₀ : Begins calls i n₀ s₀)
    (h : Run (next calls) s tr u) (h₀ : Run (next calls) s₀ tr₀ u₀)
    (hc : Obeys (Answering calls i n answer collected) tr)
    (hc₀ : Obeys (Answering calls i n₀ answer collected) tr₀) :
    (∀ r r₀, u.pc i = .done r → u₀.pc i = .done r₀ → r = r₀) ∧
    Returns calls i n answer collected u ∧ Returns calls i n₀ answer collected u₀ ∧
    ∀ c, SendFailed tr c → ¬ InUse u c := by
  have serves : ∀ {m v w p}, Begins calls i m v → Run (next calls) v p w →
      Obeys (Answering calls i m answer collected) p → Serving calls i m answer collected w :=
    fun hb hr ho => hr.invariant_of (fun _ _ _ hs ha hn => serving_step hs ha (step_of_next hn))
      hb.serving ho
  have hu := serves hs h hc
  have hu₀ := serves hs₀ h₀ hc₀
  have result : ∀ {m w r}, Serving calls i m answer collected w → w.pc i = .done r →
      r = expected (calls i) answer collected := by
    intro m w r hw hd
    have hplace := hw.place
    rwa [hd] at hplace
  refine ⟨?_, hu.returns, hu₀.returns, ?_⟩
  · intro r r₀ hr hr₀
    rw [result hu hr, result hu₀ hr₀]
  · intro c hf
    exact ((Unpooled.run hs.ownership h).failed c hf).1

def sampleAnswer (req : Request) : Head × Bytes := (⟨200, [("x-method", req.method)]⟩, req.body)

def sampleStale : State :=
  { boot 1 with
    idle := fun a => if a = sampleAddr then [0] else []
    conns := [⟨sampleAddr, true⟩] }

theorem sampleStale_begins : Begins (fun _ => sampleCall) 0 1 sampleStale := by
  refine ⟨⟨?_, ?_, ?_, ?_, ?_, ?_⟩, rfl, ?_, rfl, ?_⟩
  · intro a
    by_cases ha : a = sampleAddr <;> simp [sampleStale, ha]
  · intro a c hc
    by_cases ha : a = sampleAddr
    · simp only [sampleStale, ha, if_pos, List.mem_singleton] at hc
      simp [hc, ha, sampleStale, addrOf]
    · simp [sampleStale, ha] at hc
  all_goals simp [sampleStale, boot, sender, CleanPool, State.outstanding]

theorem boot_begins : Begins (fun _ => sampleCall) 0 0 (boot 1) :=
  ⟨boot_ownership _ 1, rfl, nofun, rfl, nofun⟩

def result : Pc → Option (Except ProxyError Response)
  | .done r => some r
  | _ => none

theorem done_of_result {pc : Pc} {r : Except ProxyError Response} (h : result pc = some r) :
    pc = .done r := by
  cases pc <;> cases h
  rfl

def sampleAnswered : List Event :=
  [.receive 0, .call 0 (.respond 0 (sampleAnswer (buildRequest sampleCall)).1), .drain 0,
    .call 0 .release, .call 0 (.body (.ok (sampleAnswer (buildRequest sampleCall)).2))]

theorem pooling_invisible_stale : ∃ tr tr₀ u u₀ r,
    Run (next fun _ => sampleCall) sampleStale tr u ∧
    Run (next fun _ => sampleCall) (boot 1) tr₀ u₀ ∧ SendFailed tr 0 ∧
    (u.pc 0 = .done (.ok r) ∧ u₀.pc 0 = .done (.ok r)) ∧
    (∀ r r₀, u.pc 0 = .done r → u₀.pc 0 = .done r₀ → r = r₀) ∧
    Returns (fun _ => sampleCall) 0 1 sampleAnswer (.ok ()) u ∧
    Returns (fun _ => sampleCall) 0 0 sampleAnswer (.ok ()) u₀ ∧
    ∀ c, SendFailed tr c → ¬ InUse u c := by
  have answers : ∀ {n : ℕ} {s : State}, (∀ x, s.exchanges[0]? = some x → x.received = true ∧
      x.req = buildRequest sampleCall) →
      Answering (fun _ => sampleCall) 0 n sampleAnswer (.ok ()) s
        (.call 0 (.respond 0 (sampleAnswer (buildRequest sampleCall)).1)) := by
    intro n s hx
    refine answering_own fun x hk => ?_
    rw [(hx x hk).2]
    exact ⟨(hx x hk).1, rfl⟩
  obtain ⟨u, hr, hv⟩ := run_of_view (next fun _ => sampleCall) sampleStale
    ([.call 0 .start, .call 0 (.collect (.ok ())), .call 0 .acquire,
      .call 0 (.send (.error "connection closed"))] ++ sampleSend 0 ++ sampleAnswered)
    (fun s => result (s.pc 0)) (some (.ok ⟨200, [("x-method", "POST")], [1, 2]⟩)) rfl
  obtain ⟨u₀, hr₀, hv₀⟩ := run_of_view (next fun _ => sampleCall) (boot 1)
    (sampleCold 0 ++ sampleAnswered)
    (fun s => result (s.pc 0)) (some (.ok ⟨200, [("x-method", "POST")], [1, 2]⟩)) rfl
  have hfailed : SendFailed (traceOf (next fun _ => sampleCall) sampleStale
      ([.call 0 .start, .call 0 (.collect (.ok ())), .call 0 .acquire,
        .call 0 (.send (.error "connection closed"))] ++ sampleSend 0 ++ sampleAnswered)) 0 :=
    ⟨_, .tail _ (.tail _ (.tail _ (.head _))), rfl⟩
  refine ⟨_, _, u, u₀, _, hr, hr₀, hfailed, ⟨done_of_result hv, done_of_result hv₀⟩,
    pooling_invisible _ 0 sampleAnswer (.ok ()) sampleStale_begins boot_begins hr hr₀ ?_ ?_⟩
  · refine obeys_cons.mpr ⟨answering_own trivial, obeys_cons.mpr ⟨answering_own rfl,
      obeys_cons.mpr ⟨answering_own trivial, obeys_cons.mpr ⟨answering_own ?_, ?_⟩⟩⟩⟩
    · intro c hc
      cases hc
      decide
    · refine obeys_cons.mpr ⟨answering_own rfl, obeys_cons.mpr ⟨answering_own rfl,
        obeys_cons.mpr ⟨answering_own trivial, obeys_cons.mpr ⟨trivial,
          obeys_cons.mpr ⟨answers ?_, obeys_cons.mpr ⟨trivial, obeys_cons.mpr
            ⟨answering_own trivial, obeys_cons.mpr ⟨answering_own rfl, obeys_nil _⟩⟩⟩⟩⟩⟩⟩⟩
      intro x hx
      cases hx
      exact ⟨rfl, rfl⟩
  · refine obeys_cons.mpr ⟨answering_own trivial, obeys_cons.mpr ⟨answering_own rfl,
      obeys_cons.mpr ⟨answering_own trivial, obeys_cons.mpr ⟨answering_own rfl,
        obeys_cons.mpr ⟨answering_own rfl, obeys_cons.mpr ⟨answering_own trivial,
          obeys_cons.mpr ⟨trivial, obeys_cons.mpr ⟨answers ?_, obeys_cons.mpr ⟨trivial,
            obeys_cons.mpr ⟨answering_own trivial, obeys_cons.mpr ⟨answering_own rfl,
              obeys_nil _⟩⟩⟩⟩⟩⟩⟩⟩⟩⟩⟩
    intro x hx
    cases hx
    exact ⟨rfl, rfl⟩

end PoolTransparency
