import PrismProxy.TransitionRuns
import PrismProxy.HttpMessage

/-! # Calls of `forward` over one connection pool

Any number of calls share the pool. The connections, what hyper does on them and what the
upstream does at their other end are steps of their own. A connection with an exchange in
progress refuses another request: `send_request` then fails as not ready. -/
namespace UpstreamForward

open ProxyConfig HttpMessage
open ProxyPlugin (Bytes)

def hopByHop : List String :=
  ["connection", "keep-alive", "proxy-authenticate", "proxy-authorization", "te", "trailers",
    "transfer-encoding", "upgrade"]

def stripHopByHop (headers : HeaderMap) : HeaderMap := hopByHop.foldl HeaderMap.remove headers

/-- The arguments of one `forward`. `hostParses`: the `http` crate takes the upstream address
as a header value. `clientIp` is the text of the peer's address. -/
structure Call where
  req : Request
  upstreamAddr : String
  hostParses : Bool
  timeoutMs : ℕ
  clientIp : String
  isTls : Bool

def upstreamHeaders (call : Call) : HeaderMap :=
  let headers := stripHopByHop call.req.headers
  let headers := if call.hostParses then headers.insert "host" call.upstreamAddr else headers
  let headers := headers.insert "x-forwarded-for" call.clientIp
  let headers := headers.insert "x-forwarded-proto" (if call.isTls then "https" else "http")
  match headers.get "host" with
  | some host => headers.insert "x-forwarded-host" host
  | none => headers

/-- What `build_request` makes of the parts and the collected body. -/
def buildRequest (call : Call) : Request := { call.req with headers := upstreamHeaders call }

/-- A `Duration` of whole milliseconds as `{:?}` prints it. -/
def debugMillis (ms : ℕ) : String :=
  if 1000 ≤ ms then
    let digits := (toString (1000 + ms % 1000)).toList.drop 1
    let fraction := (digits.reverse.dropWhile (· = '0')).reverse
    toString (ms / 1000) ++ (if fraction = [] then "" else "." ++ String.ofList fraction) ++ "s"
  else if 0 < ms then toString ms ++ "ms" else "0ns"

def timeoutError (call : Call) : ProxyError :=
  .timeout s!"{call.upstreamAddr}: exceeded {debugMillis call.timeoutMs}"

structure Head where
  status : ℕ
  headers : HeaderMap

/-- The awaits of `forward_inner`. `retry` is set from the failed `send_request` on. -/
inductive Pc where
  | absent
  | collecting
  | acquiring (req : Request)
  | connecting (req : Request) (retry : Bool)
  | handshaking (req : Request) (retry : Bool)
  | sending (req : Request) (sender : ℕ) (retry : Bool)
  | awaiting (req : Request) (sender : ℕ) (retry : Bool)
  | releasing (sender : ℕ) (resp : Head)
  | reading (conn : ℕ) (resp : Head)
  | done (result : Except ProxyError Response)

/-- A request taken by a connection whose response has not been read to its end. -/
structure Exchange where
  call : ℕ
  conn : ℕ
  req : Request
  received : Bool
  headed : Bool

structure Conn where
  addr : String
  isOpen : Bool

/-- A request an upstream has received in full, with the call it came from and the connection it
came over. -/
structure Delivery where
  call : ℕ
  conn : ℕ
  req : Request

/-- A connection is named by its place in `conns`. `exchanges` are in the order of sending;
`delivered` is what the upstreams have received. -/
structure State where
  maxIdlePerHost : ℕ
  idle : String → List ℕ
  conns : List Conn
  exchanges : List Exchange
  pc : ℕ → Pc
  delivered : List Delivery

def boot (maxIdlePerHost : ℕ) : State := ⟨maxIdlePerHost, fun _ => [], [], [], fun _ => .absent, []⟩

def State.goto (s : State) (i : ℕ) (pc : Pc) : State := { s with pc := Function.update s.pc i pc }

def State.setIdle (s : State) (addr : String) (conns : List ℕ) : State :=
  { s with idle := Function.update s.idle addr conns }

def State.connected (s : State) (addr : String) : State :=
  { s with conns := s.conns ++ [⟨addr, true⟩] }

def State.setExchanges (s : State) (exchanges : List Exchange) : State :=
  { s with exchanges := exchanges }

def State.isOpen (s : State) (c : ℕ) : Bool := s.conns[c]?.any Conn.isOpen

/-- The exchange in place `k` if it is the first on its connection. -/
def State.first (s : State) (k : ℕ) : Option Exchange :=
  s.exchanges[k]?.filter fun x => (s.exchanges.take k).all fun y => y.conn != x.conn

def State.deliveries (s : State) (i : ℕ) : ℕ := s.delivered.countP fun d => d.call == i

def State.outstanding (s : State) (c : ℕ) : ℕ := s.exchanges.countP fun x => x.conn == c

/-- What ends an await of a call, with its outcome; `cancel` is the timeout of `forward`. -/
inductive Act where
  | start
  | collect (r : Except String Unit)
  | acquire
  | connect (r : Except String Unit)
  | handshake (r : Except String Unit)
  | send (r : Except String Unit)
  | fail (e : String)
  | respond (k : ℕ) (resp : Head)
  | release
  | body (r : Except String Bytes)
  | cancel

inductive Event where
  | call (i : ℕ) (act : Act)
  | receive (k : ℕ)
  | drain (k : ℕ)
  | close (c : ℕ)

/-- The two arms of a failed `send_request`: a fresh connection first, then the error. -/
def afterSendError (req : Request) (retry : Bool) (e : String) : Pc :=
  if retry then .done (.error (.hyper e)) else .connecting req true

def acquireStep (s : State) (i : ℕ) (addr : String) (req : Request) : State :=
  match (s.idle addr).getLast? with
  | some c =>
    (s.setIdle addr (s.idle addr).dropLast).goto i (.sending req c false)
  | none => s.goto i (.connecting req false)

def releaseStep (s : State) (i : ℕ) (addr : String) (c : ℕ) (resp : Head) : State :=
  if (s.idle addr).length < s.maxIdlePerHost then
    (s.setIdle addr (s.idle addr ++ [c])).goto i (.reading c resp)
  else s.goto i (.reading c resp)

def callStep (call : Call) (s : State) (i : ℕ) : Act → Option State
  | .start =>
    match s.pc i with
    | .absent => some (s.goto i .collecting)
    | _ => none
  | .collect r =>
    match s.pc i, r with
    | .collecting, .error e => some (s.goto i (.done (.error (.hyper e))))
    | .collecting, .ok () => some (s.goto i (.acquiring (buildRequest call)))
    | _, _ => none
  | .acquire =>
    match s.pc i with
    | .acquiring req => some (acquireStep s i call.upstreamAddr req)
    | _ => none
  | .connect r =>
    match s.pc i, r with
    | .connecting _ _, .error e =>
      some (s.goto i (.done (.error (.upstreamConnect s!"{call.upstreamAddr}: {e}"))))
    | .connecting req retry, .ok () => some (s.goto i (.handshaking req retry))
    | _, _ => none
  | .handshake r =>
    match s.pc i, r with
    | .handshaking _ _, .error e => some (s.goto i (.done (.error (.hyper e))))
    | .handshaking req retry, .ok () =>
      some ((s.connected call.upstreamAddr).goto i (.sending req s.conns.length retry))
    | _, _ => none
  | .send r =>
    match s.pc i, r with
    | .sending req _ retry, .error e => some (s.goto i (afterSendError req retry e))
    | .sending req c retry, .ok () =>
      -- hyper has a busy connection refuse: one exchange at a time
      if s.isOpen c && s.outstanding c == 0 then
        some ((s.setExchanges (s.exchanges ++ [⟨i, c, req, false, false⟩])).goto i
          (.awaiting req c retry))
      else none
    | _, _ => none
  | .fail e =>
    match s.pc i with
    | .awaiting req c retry =>
      if s.isOpen c then none else some (s.goto i (afterSendError req retry e))
    | _ => none
  | .respond k resp =>
    match s.pc i, s.first k with
    | .awaiting _ c _, some x =>
      if x.call = i ∧ x.conn = c then
        some ((s.setExchanges (s.exchanges.set k { x with headed := true })).goto i
          (.releasing c resp))
      else none
    | _, _ => none
  | .release =>
    match s.pc i with
    | .releasing c resp => some (releaseStep s i call.upstreamAddr c resp)
    | _ => none
  | .body r =>
    match s.pc i, r with
    | .reading c _, .error e =>
      if s.isOpen c then none else some (s.goto i (.done (.error (.hyper e))))
    | .reading c resp, .ok bytes =>
      if s.exchanges.any fun x => x.call == i && x.conn == c then none
      else some (s.goto i (.done (.ok ⟨resp.status, stripHopByHop resp.headers, bytes⟩)))
    | _, _ => none
  | .cancel =>
    match s.pc i with
    | .absent | .done _ => none
    | _ => some (s.goto i (.done (.error (timeoutError call))))

/-- One step: of a call, of the upstream that receives a request, of a connection that has read
a response to its end, or the end of a connection. -/
def next (calls : ℕ → Call) (s : State) : Event → Option State
  | .call i act => callStep (calls i) s i act
  | .receive k =>
    match s.exchanges[k]? with
    | some x =>
      if x.received then none
      else some { s with
        exchanges := s.exchanges.set k { x with received := true }
        delivered := ⟨x.call, x.conn, x.req⟩ :: s.delivered }
    | none => none
  | .drain k =>
    match s.first k with
    | some x => if x.headed then some (s.setExchanges (s.exchanges.eraseIdx k)) else none
    | none => none
  | .close c =>
    match s.conns[c]? with
    | some conn =>
      some { s with
        conns := s.conns.set c { conn with isOpen := false }
        exchanges := s.exchanges.filter fun x => x.conn != c }
    | none => none

section Fields

variable (s : State) (i c : ℕ) (pc : Pc) (addr : String) (conns : List ℕ) (xs : List Exchange)

@[simp] theorem goto_idle : (s.goto i pc).idle = s.idle := rfl
@[simp] theorem goto_conns : (s.goto i pc).conns = s.conns := rfl
@[simp] theorem goto_exchanges : (s.goto i pc).exchanges = s.exchanges := rfl
@[simp] theorem goto_delivered : (s.goto i pc).delivered = s.delivered := rfl
@[simp] theorem goto_max : (s.goto i pc).maxIdlePerHost = s.maxIdlePerHost := rfl
@[simp] theorem setIdle_conns : (s.setIdle addr conns).conns = s.conns := rfl
@[simp] theorem setIdle_exchanges : (s.setIdle addr conns).exchanges = s.exchanges := rfl
@[simp] theorem setIdle_pc : (s.setIdle addr conns).pc = s.pc := rfl
@[simp] theorem setIdle_delivered : (s.setIdle addr conns).delivered = s.delivered := rfl
@[simp] theorem connected_idle : (s.connected addr).idle = s.idle := rfl
@[simp] theorem connected_exchanges : (s.connected addr).exchanges = s.exchanges := rfl
@[simp] theorem connected_pc : (s.connected addr).pc = s.pc := rfl
@[simp] theorem connected_delivered : (s.connected addr).delivered = s.delivered := rfl
@[simp] theorem setExchanges_idle : (s.setExchanges xs).idle = s.idle := rfl
@[simp] theorem setExchanges_conns : (s.setExchanges xs).conns = s.conns := rfl
@[simp] theorem setExchanges_exchanges : (s.setExchanges xs).exchanges = xs := rfl
@[simp] theorem setExchanges_pc : (s.setExchanges xs).pc = s.pc := rfl
@[simp] theorem setExchanges_delivered : (s.setExchanges xs).delivered = s.delivered := rfl

@[simp] theorem goto_pc_self : (s.goto i pc).pc i = pc := Function.update_self ..

theorem goto_pc_of_ne {i j : ℕ} (h : j ≠ i) : (s.goto i pc).pc j = s.pc j :=
  Function.update_of_ne h ..

theorem first_getElem {s : State} {k : ℕ} {x : Exchange} (h : s.first k = some x) :
    s.exchanges[k]? = some x := (Option.filter_eq_some_iff.mp h).1

theorem countP_set_add {xs : List Exchange} {k : ℕ} {x : Exchange} (h : xs[k]? = some x)
    (p : Exchange → Bool) (y : Exchange) :
    (xs.set k y).countP p + (if p x then 1 else 0) = xs.countP p + (if p y then 1 else 0) := by
  obtain ⟨hk, rfl⟩ := List.getElem?_eq_some_iff.mp h
  have hle : (if p xs[k] then 1 else 0) ≤ xs.countP p := List.boole_getElem_le_countP hk
  rw [List.countP_set hk]
  omega

theorem goto_cases {P : Pc → Prop} {s : State} {i j : ℕ} {pc : Pc}
    (h : P ((s.goto i pc).pc j)) : (j = i ∧ P pc) ∨ (j ≠ i ∧ P (s.pc j)) := by
  by_cases hj : j = i
  · subst hj
    rw [goto_pc_self] at h
    exact Or.inl ⟨rfl, h⟩
  · rw [goto_pc_of_ne _ _ hj] at h
    exact Or.inr ⟨hj, h⟩

theorem mem_set_cases {xs : List Exchange} {k : ℕ} {x y z : Exchange} (hx : xs[k]? = some x)
    (hcall : y.call = x.call) (hconn : y.conn = x.conn) (hz : z ∈ xs.set k y) :
    ∃ w ∈ xs, w.call = z.call ∧ w.conn = z.conn := by
  rcases List.mem_or_eq_of_mem_set hz with hz | rfl
  · exact ⟨z, hz, rfl, rfl⟩
  · exact ⟨x, List.mem_of_getElem? hx, hcall.symm, hconn.symm⟩

end Fields

inductive Moves (call : Call) (s : State) (i : ℕ) : Pc → Act → Pc → Prop where
  | start : Moves call s i .absent .start .collecting
  | collectError (e) : Moves call s i .collecting (.collect (.error e)) (.done (.error (.hyper e)))
  | collected : Moves call s i .collecting (.collect (.ok ())) (.acquiring (buildRequest call))
  | miss (req) (h : s.idle call.upstreamAddr = []) :
    Moves call s i (.acquiring req) .acquire (.connecting req false)
  | connectError (req retry e) : Moves call s i (.connecting req retry) (.connect (.error e))
      (.done (.error (.upstreamConnect s!"{call.upstreamAddr}: {e}")))
  | connected (req retry) : Moves call s i (.connecting req retry) (.connect (.ok ()))
      (.handshaking req retry)
  | handshakeError (req retry e) : Moves call s i (.handshaking req retry) (.handshake (.error e))
      (.done (.error (.hyper e)))
  | refused (req c retry e) : Moves call s i (.sending req c retry) (.send (.error e))
      (afterSendError req retry e)
  | full (c resp) (h : s.maxIdlePerHost ≤ (s.idle call.upstreamAddr).length) :
    Moves call s i (.releasing c resp) .release (.reading c resp)
  | bodyError (c resp e) (h : s.isOpen c = false) :
    Moves call s i (.reading c resp) (.body (.error e)) (.done (.error (.hyper e)))
  | finish (c resp bytes) (h : ∀ x ∈ s.exchanges, ¬ (x.call = i ∧ x.conn = c)) :
    Moves call s i (.reading c resp) (.body (.ok bytes))
      (.done (.ok ⟨resp.status, stripHopByHop resp.headers, bytes⟩))
  | timeout (pc) (h : pc ≠ .absent) (hd : ∀ r, pc ≠ .done r) :
    Moves call s i pc .cancel (.done (.error (timeoutError call)))

inductive CallStep (call : Call) (s : State) (i : ℕ) : Act → State → Prop where
  | move {act pc} (h : Moves call s i (s.pc i) act pc) : CallStep call s i act (s.goto i pc)
  | reuse (req c) (hp : s.pc i = .acquiring req)
    (h : (s.idle call.upstreamAddr).getLast? = some c) :
    CallStep call s i .acquire
      ((s.setIdle call.upstreamAddr (s.idle call.upstreamAddr).dropLast).goto i
        (.sending req c false))
  | opened (req retry) (hp : s.pc i = .handshaking req retry) :
    CallStep call s i (.handshake (.ok ()))
      ((s.connected call.upstreamAddr).goto i (.sending req s.conns.length retry))
  | sent (req c retry) (hp : s.pc i = .sending req c retry) (h : s.isOpen c = true)
    (free : s.outstanding c = 0) :
    CallStep call s i (.send (.ok ()))
      ((s.setExchanges (s.exchanges ++ [⟨i, c, req, false, false⟩])).goto i
        (.awaiting req c retry))
  | failed (req c retry e) (hp : s.pc i = .awaiting req c retry) (h : s.isOpen c = false) :
    CallStep call s i (.fail e) (s.goto i (afterSendError req retry e))
  | answered (req retry k x resp) (hp : s.pc i = .awaiting req x.conn retry)
    (h : s.first k = some x) (hx : x.call = i) :
    CallStep call s i (.respond k resp)
      ((s.setExchanges (s.exchanges.set k { x with headed := true })).goto i
        (.releasing x.conn resp))
  | kept (c resp) (hp : s.pc i = .releasing c resp)
    (h : (s.idle call.upstreamAddr).length < s.maxIdlePerHost) :
    CallStep call s i .release
      ((s.setIdle call.upstreamAddr (s.idle call.upstreamAddr ++ [c])).goto i (.reading c resp))

inductive Step (calls : ℕ → Call) (s : State) : Event → State → Prop where
  | call (i act t) (h : CallStep (calls i) s i act t) : Step calls s (.call i act) t
  | receive (k x) (h : s.exchanges[k]? = some x) (hr : x.received = false) :
    Step calls s (.receive k)
      { s with
        exchanges := s.exchanges.set k { x with received := true }
        delivered := ⟨x.call, x.conn, x.req⟩ :: s.delivered }
  | drain (k x) (h : s.first k = some x) (hh : x.headed = true) :
    Step calls s (.drain k) (s.setExchanges (s.exchanges.eraseIdx k))
  | close (c conn) (h : s.conns[c]? = some conn) :
    Step calls s (.close c)
      { s with
        conns := s.conns.set c { conn with isOpen := false }
        exchanges := s.exchanges.filter fun x => x.conn != c }

theorem callStep_cases {call : Call} {s t : State} {i : ℕ} {act : Act}
    (h : callStep call s i act = some t) : CallStep call s i act t := by
  have quiet : ∀ {p pc}, s.pc i = p → Moves call s i p act pc →
      CallStep call s i act (s.goto i pc) := by
    rintro _ pc rfl hm
    exact .move hm
  cases act with
  | start =>
    cases hp : s.pc i <;> simp only [callStep, hp, reduceCtorEq] at h
    cases h
    exact quiet hp .start
  | collect r =>
    cases r <;> cases hp : s.pc i <;> simp only [callStep, hp, reduceCtorEq] at h <;> cases h
    · exact quiet hp (.collectError _)
    · exact quiet hp .collected
  | acquire =>
    cases hp : s.pc i <;> simp only [callStep, hp, reduceCtorEq] at h
    cases h
    cases hl : (s.idle call.upstreamAddr).getLast? with
    | none =>
      simp only [acquireStep, hl]
      exact quiet hp (.miss _ (List.getLast?_eq_none_iff.mp hl))
    | some c =>
      simp only [acquireStep, hl]
      exact .reuse _ c hp hl
  | connect r =>
    cases r <;> cases hp : s.pc i <;> simp only [callStep, hp, reduceCtorEq] at h <;> cases h
    · exact quiet hp (.connectError ..)
    · exact quiet hp (.connected ..)
  | handshake r =>
    cases r <;> cases hp : s.pc i <;> simp only [callStep, hp, reduceCtorEq] at h <;> cases h
    · exact quiet hp (.handshakeError ..)
    · exact .opened _ _ hp
  | send r =>
    cases r <;> cases hp : s.pc i <;> simp only [callStep, hp, reduceCtorEq] at h
    · cases h
      exact quiet hp (.refused ..)
    · obtain ⟨ho, h⟩ := Option.ite_none_right_eq_some.mp h
      obtain ⟨hopen, hfree⟩ := Bool.and_eq_true_iff.mp ho
      cases h
      exact .sent _ _ _ hp hopen (by simpa using hfree)
  | fail e =>
    cases hp : s.pc i <;> simp only [callStep, hp, reduceCtorEq] at h
    obtain ⟨ho, h⟩ := Option.ite_none_left_eq_some.mp h
    cases h
    exact .failed _ _ _ e hp (by simpa using ho)
  | respond k resp =>
    cases hp : s.pc i <;> cases hf : s.first k <;> simp only [callStep, hp, hf, reduceCtorEq] at h
    obtain ⟨⟨hi, rfl⟩, h⟩ := Option.ite_none_right_eq_some.mp h
    cases h
    exact .answered _ _ k _ resp hp hf hi
  | release =>
    cases hp : s.pc i <;> simp only [callStep, hp, reduceCtorEq] at h
    cases h
    by_cases hl : (s.idle call.upstreamAddr).length < s.maxIdlePerHost
    · simp only [releaseStep, if_pos hl]
      exact .kept _ _ hp hl
    · simp only [releaseStep, if_neg hl]
      exact quiet hp (.full _ _ (by omega))
  | body r =>
    cases r <;> cases hp : s.pc i <;> simp only [callStep, hp, reduceCtorEq] at h
    · obtain ⟨ho, h⟩ := Option.ite_none_left_eq_some.mp h
      cases h
      exact quiet hp (.bodyError _ _ _ (by simpa using ho))
    · obtain ⟨ho, h⟩ := Option.ite_none_left_eq_some.mp h
      cases h
      exact quiet hp (.finish _ _ _ (by simpa using ho))
  | cancel =>
    cases hp : s.pc i <;> simp only [callStep, hp, reduceCtorEq] at h <;> cases h <;>
      exact quiet hp (.timeout _ (by simp) (by simp))

theorem step_of_next {calls : ℕ → Call} {s t : State} {e : Event}
    (h : next calls s e = some t) : Step calls s e t := by
  cases e with
  | call i act => exact .call i act t (callStep_cases h)
  | receive k =>
    cases hx : s.exchanges[k]? <;> simp only [next, hx, reduceCtorEq] at h
    obtain ⟨hr, h⟩ := Option.ite_none_left_eq_some.mp h
    cases h
    exact .receive k _ hx (by simpa using hr)
  | drain k =>
    cases hf : s.first k <;> simp only [next, hf, reduceCtorEq] at h
    obtain ⟨hh, h⟩ := Option.ite_none_right_eq_some.mp h
    cases h
    exact .drain k _ hf hh
  | close c =>
    cases hc : s.conns[c]? <;> simp only [next, hc, reduceCtorEq] at h
    cases h
    exact .close c _ hc

def sampleAddr : String := "127.0.0.1:3000"

def sampleCall : Call :=
  ⟨⟨"POST", .origin "/orders" none, [("host", "shop.example"), ("connection", "close")], [1, 2]⟩,
    sampleAddr, true, 1500, "10.0.0.7", false⟩

example : stripHopByHop sampleCall.req.headers = [("host", "shop.example")] := by decide

def sampleSend (i : ℕ) : List Event :=
  [.call i (.connect (.ok ())), .call i (.handshake (.ok ())), .call i (.send (.ok ()))]

def sampleCold (i : ℕ) : List Event :=
  [.call i .start, .call i (.collect (.ok ())), .call i .acquire] ++ sampleSend i

end UpstreamForward
