import PrismProxy.HealthLoops
import PrismProxy.ServedCalls

/-! # The whole proxy

The server of `run_with_listener_hot` with the requests of its connections. A request comes on
a connection that a handler was given and is told what that handler knows: the address of the
peer, and whether it is served over TLS. What start-up and the loops store, and what the health
loops write into a flag, is what every request reads next. -/
namespace WholeProxy

open TransitionRuns StatePublication
open RequestServing (Arrival)

variable {H : Host}

/-- `maxIdlePerHost` is what the pool was created with. The requests share a state from the
first publication on; `begun` is the connection of each request that has begun, counted from
the first one handed to a handler. -/
structure State (H : Host) where
  server : ProxyServer.State H
  maxIdlePerHost : ℕ
  serving : Option RequestServing.State
  begun : ℕ → Option ℕ

inductive Event where
  | server (e : ProxyServer.Event)
  | request (i c : ℕ)
  | serve (e : RequestServing.Event)

def boot (H : Host) (file : FileVersion) (dirs : String → CertificateCache.CacheDir)
    (instant wall : ℕ) : State H :=
  ⟨ProxyServer.boot H file dirs instant wall, 0, none, fun _ => none⟩

/-- `ConnectionPool::new`, on the config that start-up has just validated. -/
def poolCreated (s t : ProxyServer.State H) : Option ℕ :=
  match s.main, t.main with
  | .readConfig, .building r _ => some r.config.server.maxIdleConnections
  | _, _ => none

def State.requests (s : State H) (t : ProxyServer.State H) : Option RequestServing.State :=
  t.published.map fun p =>
    match s.serving with
    | some r => r.publish fun m => { m with current := p.state, flags := t.flags }
    | none => RequestServing.boot p.state t.flags s.maxIdlePerHost

def State.advance (s : State H) (t : ProxyServer.State H) : State H :=
  { s with
    server := t
    maxIdlePerHost := (poolCreated s.server t).getD s.maxIdlePerHost
    serving := s.requests t }

theorem requests_first {s : State H} {t : ProxyServer.State H} {p : Publication H}
    (hs : s.serving = none) (hp : t.published = some p) :
    s.requests t = some (RequestServing.boot p.state t.flags s.maxIdlePerHost) := by
  simp [State.requests, hs, hp]

theorem requests_later {s : State H} {t : ProxyServer.State H} {r : RequestServing.State}
    {p : Publication H} (hs : s.serving = some r) (hp : t.published = some p) :
    s.requests t = some (r.publish fun m => { m with current := p.state, flags := t.flags }) := by
  simp [State.requests, hs, hp]

def subject : RequestServing.Event → Option ℕ
  | .step i | .health i _ | .load i | .page i | .forwarded i | .elapsed i _ | .record i
  | .forward (.call i _) => some i
  | _ => none

/-- Only requests that have begun take steps, and only the server stores and writes flags. -/
def State.permits (s : State H) (e : RequestServing.Event) : Bool :=
  match e with
  | .store _ | .setFlag _ _ => false
  | e => (subject e).all fun i => (s.begun i).isSome

def State.begin (s : State H) (i c : ℕ) : State H :=
  { s with begun := Function.update s.begun i (some c) }

/-- The connection in place `c`, in the order in which they were handed over. -/
def State.connection (s : State H) (c : ℕ) : Option (ProxyServer.Handoff H) :=
  s.server.handed.reverse[c]?

section Steps

variable (arrivals : ℕ → Arrival) (peers : ℕ → String) (hostParses : String → Bool)

def next (s : State H) : Event → Option (State H)
  | .server e => (ProxyServer.next s.server e).map s.advance
  | .request i c =>
    match s.begun i, s.connection c with
    | none, some handoff =>
      if (arrivals i).isTls = handoff.tls ∧ (arrivals i).clientIp = peers c then
        some (s.begin i c)
      else none
    | _, _ => none
  | .serve e =>
    if s.permits e then
      s.serving.bind fun r =>
        (RequestServing.next arrivals hostParses r e).map fun r => { s with serving := some r }
    else none

inductive Step (s : State H) : Event → State H → Prop where
  | server (e t) (h : ProxyServer.next s.server e = some t) : Step s (.server e) (s.advance t)
  | request (i c handoff) (new : s.begun i = none) (conn : s.connection c = some handoff)
    (tls : (arrivals i).isTls = handoff.tls) (peer : (arrivals i).clientIp = peers c) :
    Step s (.request i c) (s.begin i c)
  | serve (e r r') (permitted : s.permits e = true) (live : s.serving = some r)
    (h : RequestServing.next arrivals hostParses r e = some r') :
    Step s (.serve e) { s with serving := some r' }

theorem step_of_next {s t : State H} {e : Event} (h : next arrivals peers hostParses s e = some t) :
    Step arrivals peers hostParses s e t := by
  cases e with
  | server e =>
    obtain ⟨t', ht, rfl⟩ := Option.map_eq_some_iff.mp h
    exact .server e t' ht
  | request i c =>
    cases hb : s.begun i <;> cases hc : s.connection c <;>
      simp only [next, hb, hc, reduceCtorEq] at h
    obtain ⟨⟨htls, hpeer⟩, h⟩ := Option.ite_none_right_eq_some.mp h
    cases h
    exact .request i c _ hb hc htls hpeer
  | serve e =>
    obtain ⟨hp, h⟩ := Option.ite_none_right_eq_some.mp h
    obtain ⟨r, hr, h⟩ := Option.bind_eq_some_iff.mp h
    obtain ⟨r', hn, rfl⟩ := Option.map_eq_some_iff.mp h
    exact .serve e r r' hp hr hn

end Steps

/-- What a step of the server is to the requests: a state stored, a flag written, or nothing. -/
def seen (s : ProxyServer.State H) : ProxyServer.Event → Option RequestServing.Event
  | .ping i ok =>
    (s.loops[i]?).map fun l => .setFlag l.healthy (l.ping (s.flags l.healthy) ok).2
  | e => (ProxyServer.storing s e).map fun w => .store w.2.state

theorem store_flags {s : ProxyServer.State H} (h : HealthLoops.Invariant s) (p : Publication H) :
    (s.store p).flags = s.flags := by
  funext j
  simp only [ProxyServer.State.store]
  split
  · rename_i hnew
    refine (h.untouched j ?_).symm
    intro l hl
    have hlt := h.allocated l hl
    omega
  · rfl

inductive Seen (s : ProxyServer.State H) (e : ProxyServer.Event) (t : ProxyServer.State H) :
    Option RequestServing.Event → Prop where
  | nothing (log : t.log = s.log) (flags : t.flags = s.flags) : Seen s e t none
  | store (w p) (storing : ProxyServer.storing s e = some (w, p)) (log : t.log = p :: s.log)
    (flags : t.flags = s.flags) : Seen s e t (some (.store p.state))
  | flag (j healthy) (log : t.log = s.log) (flags : t.flags = Function.update s.flags j healthy) :
    Seen s e t (some (.setFlag j healthy))

theorem seen_of_step {s t : ProxyServer.State H} {e : ProxyServer.Event}
    (hs : HealthLoops.Invariant s) (h : ProxyServer.Step s e t) : Seen s e t (seen s e) := by
  have stored : ∀ {w p}, ProxyServer.storing s e = some (w, p) → seen s e = some (.store p.state) →
      t.log = (s.store p).log → t.flags = (s.store p).flags → Seen s e t (seen s e) := by
    intro w p hst hseen hl hf
    rw [hseen]
    exact .store w p hst hl (hf.trans (store_flags hs p))
  have quiet : seen s e = none → t.log = s.log → t.flags = s.flags → Seen s e t (seen s e) := by
    intro hseen hl hf
    rw [hseen]
    exact .nothing hl hf
  cases h with
  | ping i ok l hl =>
    have hseen : seen s (.ping i ok) =
        some (.setFlag l.healthy (l.ping (s.flags l.healthy) ok).2) := by
      simp [seen, hl]
    rw [hseen]
    exact .flag _ _ rfl rfl
  | main r eff he =>
    cases eff with
    | publish p boot =>
      have hst : ProxyServer.storing s (.main r) = some (.main, p) := by
        simp [ProxyServer.storing, he]
      exact stored hst (by simp [seen, hst]) rfl rfl
    | _ => exact quiet (by simp [seen, ProxyServer.storing, he]) rfl rfl
  | reload r pc eff hpc he =>
    cases eff with
    | store m p =>
      have hst : ProxyServer.storing s (.reload r) = some (.reload, p) := by
        simp [ProxyServer.storing, hpc, he]
      exact stored hst (by simp [seen, hst]) rfl rfl
    | goto pc' => exact quiet (by simp [seen, ProxyServer.storing, hpc, he]) rfl rfl
  | renewal r pc eff hpc he =>
    cases eff with
    | store p =>
      have hst : ProxyServer.storing s (.renewal r) = some (.renewal, p) := by
        simp [ProxyServer.storing, hpc, he]
      exact stored hst (by simp [seen, hst]) rfl rfl
    | _ => exact quiet (by simp [seen, ProxyServer.storing, hpc, he]) rfl rfl
  | _ => exact quiet rfl rfl rfl

/-- Every request reads what is published and the flags as they are. -/
structure Consistent (s : State H) : Prop where
  health : HealthLoops.Invariant s.server
  closed : s.server.log = [] → s.serving = none
  reads : ∀ p, s.server.published = some p → ∃ r, s.serving = some r ∧
    ∀ i, (r.mediation i).current = p.state ∧ (r.mediation i).flags = s.server.flags

theorem boot_consistent (H : Host) (file : FileVersion)
    (dirs : String → CertificateCache.CacheDir) (instant wall : ℕ) :
    Consistent (boot H file dirs instant wall) where
  health := HealthLoops.boot_invariant H file dirs instant wall
  closed := fun _ => rfl
  reads := by intro p hp; cases hp

section Steps

variable {arrivals : ℕ → Arrival} {peers : ℕ → String} {hostParses : String → Bool}

theorem own_frame {req : HttpMessage.Request} {m m' : RequestMediation.State}
    {e : RequestMediation.Event} (h : RequestMediation.next req m e = some m')
    (hs : ∀ state, e ≠ .store state) (hf : ∀ j healthy, e ≠ .setFlag j healthy) :
    m'.current = m.current ∧ m'.flags = m.flags := by
  cases RequestMediation.next_cases h with
  | store state => exact absurd rfl (hs state)
  | setFlag j healthy => exact absurd rfl (hf j healthy)
  | _ => exact ⟨rfl, rfl⟩

theorem mediation_cases {r r' : RequestServing.State} {e : RequestServing.Event}
    (hs : ∀ state, e ≠ .store state) (hf : ∀ j healthy, e ≠ .setFlag j healthy)
    (h : RequestServing.Step arrivals hostParses r e r') (i : ℕ) :
    r'.mediation i = r.mediation i ∨
      (subject e = some i ∧ ∃ a, (∀ state, a ≠ .store state) ∧
        (∀ j healthy, a ≠ .setFlag j healthy) ∧
        RequestMediation.next (arrivals i).req (r.mediation i) a = some (r'.mediation i)) := by
  have one : ∀ {j : ℕ} {m : RequestMediation.State} {a : RequestMediation.Event},
      RequestMediation.next (arrivals j).req (r.mediation j) a = some m → subject e = some j →
      (∀ state, a ≠ .store state) → (∀ k healthy, a ≠ .setFlag k healthy) →
        (r.setMediation j m).mediation i = r.mediation i ∨
          (subject e = some i ∧ ∃ a, (∀ state, a ≠ .store state) ∧
            (∀ j healthy, a ≠ .setFlag j healthy) ∧ RequestMediation.next (arrivals i).req
              (r.mediation i) a = some ((r.setMediation j m).mediation i)) := by
    intro j m a hm hsub hs hf
    by_cases hij : i = j
    · subst hij
      refine Or.inr ⟨hsub, a, hs, hf, ?_⟩
      simpa [RequestServing.State.setMediation] using hm
    · exact Or.inl (RequestServing.mediation_of_ne hij m)
  cases h with
  | store state => exact absurd rfl (hs state)
  | setFlag j healthy => exact absurd rfl (hf j healthy)
  | step j m hm => exact one hm rfl (by simp) (by simp)
  | health j uptime m hp hm => exact one hm rfl (by simp) (by simp)
  | page j text m hp hm => exact one hm rfl (by simp) (by simp)
  | forwarded j result m hp hm => exact one hm rfl (by simp) (by simp)
  | elapsed j ms result m hp hm => exact one hm rfl (by simp) (by simp)
  | record j u us hr => exact Or.inl (congrFun (RequestServing.write_mediation r j u us) i)
  | load | forward => exact Or.inl rfl

theorem serving_frame {r r' : RequestServing.State} {e : RequestServing.Event}
    (hs : ∀ state, e ≠ .store state) (hf : ∀ j healthy, e ≠ .setFlag j healthy)
    (h : RequestServing.Step arrivals hostParses r e r') (i : ℕ) :
    (r'.mediation i).current = (r.mediation i).current ∧
      (r'.mediation i).flags = (r.mediation i).flags := by
  rcases mediation_cases hs hf h i with hsame | ⟨_, a, has, haf, hm⟩
  · rw [hsame]
    exact ⟨rfl, rfl⟩
  · exact own_frame hm has haf

theorem permits_not_store {s : State H} {e : RequestServing.Event} (h : s.permits e = true) :
    (∀ state, e ≠ .store state) ∧ ∀ j healthy, e ≠ .setFlag j healthy := by
  constructor
  · rintro state rfl
    cases h
  · rintro j healthy rfl
    cases h

theorem permits_begun {s : State H} {e : RequestServing.Event} (h : s.permits e = true) {i : ℕ}
    (hi : subject e = some i) : (s.begun i).isSome = true := by
  unfold State.permits at h
  split at h
  · cases hi
  · cases hi
  · simpa [hi] using h

theorem consistent_step {s t : State H} {e : Event} (hs : Consistent s)
    (h : Step arrivals peers hostParses s e t) : Consistent t := by
  cases h with
  | server e t' ht =>
    refine ⟨HealthLoops.invariant_step hs.health (ProxyServer.step_of_next ht), ?_, ?_⟩
    · intro hlog
      have hnone : t'.published = none := List.head?_eq_none_iff.mpr hlog
      simp [State.advance, State.requests, hnone]
    · intro p hp
      have hp : t'.published = some p := hp
      cases hserving : s.serving with
      | none => exact ⟨_, requests_first hserving hp, fun i => ⟨rfl, rfl⟩⟩
      | some r => exact ⟨_, requests_later hserving hp, fun i => ⟨rfl, rfl⟩⟩
  | request i c handoff new conn tls peer => exact ⟨hs.health, hs.closed, hs.reads⟩
  | serve e r r' permitted live hr =>
    refine ⟨hs.health, ?_, ?_⟩
    · intro hlog
      rw [hs.closed hlog] at live
      cases live
    · intro p hp
      obtain ⟨r₀, hr₀, hread⟩ := hs.reads p hp
      obtain rfl := Option.some.inj (live.symm.trans hr₀)
      obtain ⟨hstore, hflag⟩ := permits_not_store permitted
      refine ⟨r', rfl, ?_⟩
      intro i
      obtain ⟨hc, hf⟩ := serving_frame hstore hflag (RequestServing.step_of_next _ _ hr) i
      exact ⟨hc.trans (hread i).1, hf.trans (hread i).2⟩

def requestLabel (s : State H) : Event → Option RequestServing.Event
  | .server e => if s.serving.isSome then seen s.server e else none
  | .request _ _ => none
  | .serve e => some e

def serverLabel (_ : State H) : Event → Option ProxyServer.Event
  | .server e => some e
  | _ => none

theorem publish_congr {r : RequestServing.State}
    {f g : RequestMediation.State → RequestMediation.State}
    (h : ∀ i, f (r.mediation i) = g (r.mediation i)) : r.publish f = r.publish g := by
  have hsame : (fun i => f (r.mediation i)) = fun i => g (r.mediation i) := funext h
  simp only [RequestServing.State.publish, hsame]

theorem published_of_serving {s : State H} {r : RequestServing.State} (h : Consistent s)
    (hr : s.serving = some r) : ∃ p, s.server.published = some p ∧
      ∀ i, (r.mediation i).current = p.state ∧ (r.mediation i).flags = s.server.flags := by
  cases hp : s.server.published with
  | none =>
    rw [h.closed (List.head?_eq_none_iff.mp hp)] at hr
    cases hr
  | some p =>
    obtain ⟨r', hr', hread⟩ := h.reads p hp
    obtain rfl := Option.some.inj (hr.symm.trans hr')
    exact ⟨p, rfl, hread⟩

theorem published_step {s t : ProxyServer.State H} {e : ProxyServer.Event}
    (h : ProxyServer.Step s e t) {p : Publication H} (hs : s.published = some p) :
    ∃ q, t.published = some q := by
  apply Option.isSome_iff_exists.mp
  rw [ProxyServer.State.published, ProxyServer.step_log h, List.isSome_head?]
  exact List.append_ne_nil_of_right_ne_nil _ (List.ne_nil_of_mem (List.mem_of_mem_head? hs))

def record {α : Type} (f : RequestMediation.State → List α) (s : State H) (i : ℕ) : List α :=
  s.serving.elim [] fun r => f (r.mediation i)

theorem record_serving {α : Type} {f : RequestMediation.State → List α} {s : State H}
    {r : RequestServing.State} (h : s.serving = some r) (i : ℕ) :
    record f s i = f (r.mediation i) := by
  simp [record, h]

theorem record_step {α : Type} {f : RequestMediation.State → List α}
    (hstart : ∀ state flags, f (RequestMediation.start state flags) = [])
    (hpublish : ∀ m state flags,
      f { m with current := state, flags := flags } = f m) {s t : State H} {e : Event}
    (hc : Consistent s) (h : Step arrivals peers hostParses s e t) (i : ℕ) :
    record f t i = record f s i ∨ (t.server = s.server ∧ ∃ r r' a, s.serving = some r ∧
      t.serving = some r' ∧
      RequestMediation.next (arrivals i).req (r.mediation i) a = some (r'.mediation i)) := by
  cases h with
  | request j c handoff new conn tls peer => exact Or.inl rfl
  | server e t' ht =>
    left
    cases hs : s.serving with
    | none =>
      simp only [record, hs, State.advance, State.requests]
      cases t'.published with
      | none => rfl
      | some p => exact hstart p.state t'.flags
    | some r =>
      obtain ⟨p, hp, _⟩ := published_of_serving hc hs
      obtain ⟨q, hq⟩ := published_step (ProxyServer.step_of_next ht) hp
      simp only [record, hs, State.advance, requests_later hs hq]
      exact hpublish (r.mediation i) q.state t'.flags
  | serve e r r' permitted live hn =>
    obtain ⟨hstore, hflag⟩ := permits_not_store permitted
    rcases mediation_cases hstore hflag (RequestServing.step_of_next _ _ hn) i with
      hsame | ⟨_, a, _, _, ha⟩
    · left
      rw [record_serving live]
      exact congrArg f hsame
    · exact Or.inr ⟨rfl, r, r', a, live, rfl, ha⟩

theorem serving_step {s t : State H} {e : Event} {r : RequestServing.State} (hs : Consistent s)
    (hr : s.serving = some r) (h : Step arrivals peers hostParses s e t) :
    ∃ r', t.serving = some r' ∧
      ((requestLabel s e = none ∧ r' = r) ∨
        ∃ a, requestLabel s e = some a ∧
          RequestServing.next arrivals hostParses r a = some r') := by
  cases h with
  | request i c handoff new conn tls peer => exact ⟨r, hr, Or.inl ⟨rfl, rfl⟩⟩
  | serve e r₀ r' permitted live hn =>
    obtain rfl := Option.some.inj (live.symm.trans hr)
    exact ⟨r', rfl, Or.inr ⟨e, rfl, hn⟩⟩
  | server e t' ht =>
    obtain ⟨p, hp, hread⟩ := published_of_serving hs hr
    have hlabel : requestLabel s (.server e) = seen s.server e := by simp [requestLabel, hr]
    have hseen := seen_of_step hs.health (ProxyServer.step_of_next ht)
    rw [hlabel]
    cases hl : seen s.server e with
    | none =>
      rw [hl] at hseen
      obtain ⟨log, flags⟩ := hseen
      have hp' : t'.published = some p := by rw [← hp]; simp only [ProxyServer.State.published, log]
      refine ⟨_, requests_later hr hp', Or.inl ⟨rfl, ?_⟩⟩
      refine publish_congr (g := id) ?_
      intro i
      obtain ⟨hc, hf⟩ := hread i
      simp only [flags, ← hc, ← hf, id_eq]
    | some a =>
      rw [hl] at hseen
      cases hseen with
      | store w p' storing log flags =>
        have hp' : t'.published = some p' := by simp only [ProxyServer.State.published, log]; rfl
        refine ⟨_, requests_later hr hp', Or.inr ⟨_, rfl, congrArg some (publish_congr ?_)⟩⟩
        intro i
        simp only [flags, ← (hread i).2]
      | flag j healthy log flags =>
        have hp' : t'.published = some p := by
          rw [← hp]
          simp only [ProxyServer.State.published, log]
        refine ⟨_, requests_later hr hp', Or.inr ⟨_, rfl, congrArg some (publish_congr ?_)⟩⟩
        intro i
        obtain ⟨hc, hf⟩ := hread i
        simp only [flags, ← hc, ← hf]

def serverTrace (tr : List (State H × Event)) : List (ProxyServer.State H × ProxyServer.Event) :=
  tr.filterMap fun q => (serverLabel q.1 q.2).map fun e => (q.1.server, e)

def serverPart (arrivals : ℕ → Arrival) (peers : ℕ → String) (hostParses : String → Bool) :
    Simulation (next (H := H) arrivals peers hostParses) (ProxyServer.next (H := H)) where
  ok _ _ := True
  inv _ := True
  view := State.server
  label := serverLabel
  keeps _ _ _ _ _ _ := trivial
  idle s e t _ _ hn hl := by
    cases step_of_next _ _ _ hn with
    | server e t' ht => cases hl
    | request i c handoff new conn tls peer => rfl
    | serve e r r' permitted live hr => rfl
  move s e t a _ _ hn hl := by
    cases step_of_next _ _ _ hn with
    | server e t' ht =>
      obtain rfl := Option.some.inj hl
      exact ht
    | request i c handoff new conn tls peer => cases hl
    | serve e r r' permitted live hr => cases hl

theorem server_run {s u : State H} {tr : List (State H × Event)}
    (h : Run (next arrivals peers hostParses) s tr u) :
    Run ProxyServer.next s.server (serverTrace tr) u.server :=
  (serverPart arrivals peers hostParses).run h trivial fun _ _ => trivial

theorem poolCreated_none {s t : ProxyServer.State H} (h : ProxyServer.Opening t)
    (hlog : t.log ≠ []) : poolCreated s t = none := by
  unfold poolCreated
  split
  · rename_i hm
    exact absurd (h.starting (by rw [hm]; rfl)) hlog
  · rfl

theorem initial_step {s t : ProxyServer.State H} {e : ProxyServer.Event}
    (h : ProxyServer.Step s e t) (hlog : s.log ≠ []) :
    HealthLoops.initial t = HealthLoops.initial s := by
  rw [HealthLoops.initial, HealthLoops.initial, ProxyServer.step_log h,
    List.getLast?_append_of_ne_nil _ hlog]

theorem flags_before {s : ProxyServer.State H} (h : HealthLoops.Invariant s) (hlog : s.log = []) :
    s.flags = fun _ => true := by
  funext j
  apply h.untouched
  rw [(h.opening.tasks hlog).2.2]
  simp

/-- What start-up publishes first: the requests begin with it, with healthy flags and the pool
created by then. -/
theorem serving_created {s t : State H} {e : Event} {r : RequestServing.State}
    (hs : Consistent s) (hlog : s.server.log = []) (h : Step arrivals peers hostParses s e t)
    (hr : t.serving = some r) : ∃ p, HealthLoops.initial t.server = some p ∧
      r = RequestServing.boot p.state (fun _ => true) t.maxIdlePerHost := by
  have hnone := hs.closed hlog
  cases h with
  | request i c handoff new conn tls peer =>
    rw [State.begin, hnone] at hr
    cases hr
  | serve e r₀ r' permitted live hn =>
    rw [hnone] at live
    cases live
  | server e t' ht =>
    have hstep := ProxyServer.step_of_next ht
    have hr : s.requests t' = some r := hr
    obtain ⟨p, hp, _⟩ := Option.map_eq_some_iff.mp hr
    have hall := flags_before hs.health hlog
    have hseen := seen_of_step hs.health hstep
    generalize seen s.server e = l at hseen
    cases hseen with
    | nothing log flags => simp [ProxyServer.State.published, log, hlog] at hp
    | flag j healthy log flags => simp [ProxyServer.State.published, log, hlog] at hp
    | store w p' storing log flags =>
      have hp' : p' = p := by simpa [ProxyServer.State.published, log] using hp
      subst hp'
      refine ⟨p', by simp [State.advance, HealthLoops.initial, log, hlog], ?_⟩
      have hpool : poolCreated s.server t' = none :=
        poolCreated_none (ProxyServer.opening_step hs.health.opening hstep) (by simp [log])
      rw [requests_first hnone hp, flags, hall] at hr
      simpa [State.advance, hpool] using hr.symm

theorem maxIdle_step {s t : State H} {e : Event} (hs : Consistent s) (hlog : s.server.log ≠ [])
    (h : Step arrivals peers hostParses s e t) : t.maxIdlePerHost = s.maxIdlePerHost := by
  cases h with
  | request i c handoff new conn tls peer => rfl
  | serve e r r' permitted live hn => rfl
  | server e t' ht =>
    have hstep := ProxyServer.step_of_next ht
    have hne : t'.log ≠ [] := by
      rw [ProxyServer.step_log hstep]
      exact List.append_ne_nil_of_right_ne_nil _ hlog
    have hpool := poolCreated_none (s := s.server)
      (ProxyServer.opening_step hs.health.opening hstep) hne
    simp [State.advance, hpool]

theorem initial_kept {s t : State H} {e : Event} (hlog : s.server.log ≠ [])
    (h : Step arrivals peers hostParses s e t) :
    HealthLoops.initial t.server = HealthLoops.initial s.server := by
  cases h with
  | server e t' ht => exact initial_step (ProxyServer.step_of_next ht) hlog
  | _ => rfl

theorem serving_of_log {s : State H} (hs : Consistent s) :
    s.serving = none ↔ s.server.log = [] := by
  refine ⟨?_, hs.closed⟩
  intro hserving
  cases hl : s.server.log with
  | nil => rfl
  | cons p rest =>
    obtain ⟨r, hr, _⟩ := hs.reads p (by simp [ProxyServer.State.published, hl])
    rw [hserving] at hr
    cases hr

theorem requestLabel_none {s t : State H} {e : Event} (hserving : s.serving = none)
    (h : Step arrivals peers hostParses s e t) : requestLabel s e = none := by
  cases h with
  | server e t' ht => simp [requestLabel, hserving]
  | request i c handoff new conn tls peer => rfl
  | serve e r r' permitted live hn =>
    rw [hserving] at live
    cases live

def requestEvents (tr : List (State H × Event)) : List RequestServing.Event :=
  tr.filterMap fun q => requestLabel q.1 q.2

theorem requestEvents_snoc (tr : List (State H × Event)) (s : State H) (e : Event) :
    requestEvents (tr ++ [(s, e)]) = requestEvents tr ++ (requestLabel s e).toList := by
  rw [requestEvents, List.filterMap_append]
  cases h : requestLabel s e <;> simp [requestEvents, h]

/-- The requests of the whole proxy run as on their own: from the state published first, with
all flags healthy, over a pool of the size that was created. -/
structure ServedAlone (arrivals : ℕ → Arrival) (hostParses : String → Bool)
    (tr : List (State H × Event)) (u : State H) : Prop where
  before : u.serving = none → requestEvents tr = []
  after : ∀ r, u.serving = some r → ∃ p tr', HealthLoops.initial u.server = some p ∧
    tr'.map Prod.snd = requestEvents tr ∧
    Run (RequestServing.next arrivals hostParses)
      (RequestServing.boot p.state (fun _ => true) u.maxIdlePerHost) tr' r

theorem servedAlone_step {tr : List (State H × Event)} {s t : State H} {e : Event}
    (hs : Consistent s) (ih : ServedAlone arrivals hostParses tr s)
    (h : Step arrivals peers hostParses s e t) :
    ServedAlone arrivals hostParses (tr ++ [(s, e)]) t := by
  cases hserving : s.serving with
  | none =>
    have hempty : requestEvents (tr ++ [(s, e)]) = [] := by
      rw [requestEvents_snoc, ih.before hserving, requestLabel_none hserving h]
      rfl
    refine ⟨fun _ => hempty, ?_⟩
    intro r hr
    obtain ⟨p, hp, rfl⟩ := serving_created hs ((serving_of_log hs).mp hserving) h hr
    exact ⟨p, [], hp, hempty.symm, .nil⟩
  | some r₀ =>
    have hlog : s.server.log ≠ [] := by
      rw [Ne, ← serving_of_log hs, hserving]
      simp
    obtain ⟨r', hr', hmove⟩ := serving_step hs hserving h
    refine ⟨?_, ?_⟩
    · rw [hr']
      simp
    · intro r hr
      obtain rfl := Option.some.inj (hr'.symm.trans hr)
      obtain ⟨p, tr', hp, hmap, hrun⟩ := ih.after r₀ hserving
      rw [initial_kept hlog h, maxIdle_step hs hlog h, requestEvents_snoc, ← hmap]
      rcases hmove with ⟨hlabel, rfl⟩ | ⟨a, hlabel, hn⟩
      · exact ⟨p, tr', hp, by simp [hlabel], hrun⟩
      · exact ⟨p, tr' ++ [(r₀, a)], hp, by simp [hlabel], hrun.snoc hn⟩

theorem servedAlone_run {file : FileVersion} {dirs : String → CertificateCache.CacheDir}
    {instant wall : ℕ} {u : State H} {tr : List (State H × Event)}
    (h : Run (next arrivals peers hostParses) (boot H file dirs instant wall) tr u) :
    Consistent u ∧ ServedAlone arrivals hostParses tr u := by
  refine h.traced_invariant
    (I := fun tr u => Consistent u ∧ ServedAlone arrivals hostParses tr u) ?_ ?_
  · refine ⟨boot_consistent H file dirs instant wall, fun _ => rfl, ?_⟩
    intro r hr
    cases hr
  · rintro tr s e t ⟨hs, ih⟩ hn
    have hstep := step_of_next _ _ _ hn
    exact ⟨consistent_step hs hstep, servedAlone_step hs ih hstep⟩

/-- What the whole proxy is made of. The steps of each part are those of the whole that it sees,
in their order. -/
structure Composed (arrivals : ℕ → Arrival) (hostParses : String → Bool)
    (start : ProxyServer.State H) (tr : List (State H × Event)) (u : State H) : Prop where
  server : Run ProxyServer.next start (serverTrace tr) u.server
  requests : ∀ r, u.serving = some r → ∃ p tr', HealthLoops.initial u.server = some p ∧
    tr'.map Prod.snd = requestEvents tr ∧
    Run (RequestServing.next arrivals hostParses)
      (RequestServing.boot p.state (fun _ => true) u.maxIdlePerHost) tr' r
  forward : ∀ r, u.serving = some r → ∃ tr',
    tr'.map Prod.snd = (requestEvents tr).filterMap ServedCalls.forwardEvent ∧
    Obeys (ServedCalls.CalledIn fun i => (r.mediation i).contacted ≠ []) tr' ∧
    Run (UpstreamForward.next (ServedCalls.callsOf arrivals hostParses r))
      (UpstreamForward.boot u.maxIdlePerHost) tr' r.forward
  shared : ∀ r, u.serving = some r → ∃ p, u.server.published = some p ∧
    ∀ i, (r.mediation i).current = p.state ∧ (r.mediation i).flags = u.server.flags

theorem composed {file : FileVersion} {dirs : String → CertificateCache.CacheDir}
    {instant wall : ℕ} {u : State H} {tr : List (State H × Event)}
    (h : Run (next arrivals peers hostParses) (boot H file dirs instant wall) tr u) :
    Composed arrivals hostParses (ProxyServer.boot H file dirs instant wall) tr u := by
  obtain ⟨hu, halone⟩ := servedAlone_run h
  refine ⟨server_run h, halone.after, ?_, fun r hr => published_of_serving hu hr⟩
  intro r hr
  obtain ⟨p, tr', _, hmap, hrun⟩ := halone.after r hr
  obtain ⟨tr'', hmap', hcalled, hforward⟩ :=
    ServedCalls.forward_run hrun (ServedCalls.callsOf_agrees arrivals hostParses r) fun _ hi => hi
  refine ⟨tr'', ?_, hcalled, hforward⟩
  rw [hmap', ← hmap, List.filterMap_map]
  rfl

theorem mediated_run {file : FileVersion} {dirs : String → CertificateCache.CacheDir}
    {instant wall : ℕ} {u : State H} {tr : List (State H × Event)}
    (h : Run (next arrivals peers hostParses) (boot H file dirs instant wall) tr u)
    {r : RequestServing.State} (hr : u.serving = some r) : ServedCalls.AllMediated arrivals r := by
  obtain ⟨p, tr', _, _, hrun⟩ := (composed h).requests r hr
  exact hrun.invariant
    (fun _ _ _ hs hn => ServedCalls.allMediated_step hs (RequestServing.step_of_next _ _ hn))
    (ServedCalls.boot_mediated arrivals _ _ _)

theorem composition (file : FileVersion) (dirs : String → CertificateCache.CacheDir)
    (instant wall : ℕ) {u : State H} {tr : List (State H × Event)}
    (h : Run (next arrivals peers hostParses) (boot H file dirs instant wall) tr u) :
    Composed arrivals hostParses (ProxyServer.boot H file dirs instant wall) tr u := composed h

end Steps

def sampleArrival : Arrival := ⟨⟨"GET", .origin "/users" none, [], []⟩, "10.0.0.7", true⟩

def sampleWhole : State ProxyServer.sampleHost :=
  boot ProxyServer.sampleHost ⟨1, "127.0.0.1:3000"⟩ (fun _ => ProxyServer.samplePair) 0 1700000000

def sampleNext : State ProxyServer.sampleHost → Event → Option (State ProxyServer.sampleHost) :=
  next (fun _ => sampleArrival) (fun _ => "10.0.0.7") fun _ => true

def sampleBegun : List Event :=
  (ProxyServer.sampleStart ++ [ProxyServer.Event.accept, .dispatch]).map .server ++ [.request 0 0]

def sampleFound : List Event := List.replicate 3 (.serve (.step 0))

def sampleEdited : List Event :=
  (.writeConfig ⟨2, "127.0.0.1:3001"⟩ :: ProxyServer.sampleReload).map .server

def sampleSent : List Event :=
  List.replicate 2 (.serve (.step 0)) ++
    (UpstreamForward.sampleCold 0 ++ [UpstreamForward.Event.receive 0]).map fun e =>
      .serve (.forward e)

def sampleReloaded : List Event := sampleBegun ++ sampleFound ++ sampleEdited ++ sampleSent

def sampleView (s : State ProxyServer.sampleHost) : Option (List String × List ℕ × ℕ) :=
  s.serving.map fun r => ((r.mediation 0).contacted.map Prod.fst,
    r.forward.delivered.map UpstreamForward.Delivery.call, r.forward.maxIdlePerHost)

theorem composition_reloaded : ∃ tr u, Run sampleNext sampleWhole tr u ∧
    sampleView u = some (["127.0.0.1:3000"], [0], 10) ∧
    Composed (fun _ => sampleArrival) (fun _ => true) ProxyServer.sampleBoot tr u := by
  obtain ⟨u, hr, hv⟩ := run_of_view sampleNext sampleWhole sampleReloaded sampleView
    (some (["127.0.0.1:3000"], [0], 10)) rfl
  exact ⟨_, u, hr, hv, composition _ _ _ _ hr⟩

end WholeProxy
