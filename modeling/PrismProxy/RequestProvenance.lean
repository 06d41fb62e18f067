import PrismProxy.ConfigValidation
import PrismProxy.ForwardTransparency
import PrismProxy.PoolInvariant
import PrismProxy.StartupWatch
import PrismProxy.WholeProxy

/-! # Where a forwarded request got its target

From what an upstream receives back to the config file: the connection it comes over, the call
of `forward`, the route and the state it was decided on, the publication, and the version of
the file that was read for it. -/
namespace RequestProvenance

open TransitionRuns ProxyConfig StatePublication HttpMessage WholeProxy
open ProxyServer (MainPc MainStep ReloadPc ReloadStep RenewalPc RenewalStep Writer storing)
open StartupWatch (mainReading)
open PublicationOrder (heldByReload heldByRenewal)
open RequestServing (Arrival)
open RequestMediation (FirstMatch Mediated)

variable {H : Host}

def working (s : ProxyServer.State H) : Writer → Option (Reading H)
  | .main => mainReading s.main
  | .reload => s.reload.bind heldByReload
  | .renewal => s.renewal.bind heldByRenewal

structure FromDisk (s : ProxyServer.State H) : Prop where
  file : s.file ∈ s.history
  working : ∀ w r, working s w = some r → r.version ∈ s.history
  logged : ∀ p ∈ s.log, p.version ∈ s.history

theorem boot_fromDisk (H : Host) (file : FileVersion) (dirs : String → CertificateCache.CacheDir)
    (instant wall : ℕ) : FromDisk (ProxyServer.boot H file dirs instant wall) where
  file := List.mem_singleton_self file
  working := by intro w r hr; cases w <;> cases hr
  logged := by intro p hp; cases hp

theorem working_main {s : ProxyServer.State H} {pc : MainPc H} {r : ProxyServer.Reply}
    {eff : ProxyServer.MainEffect H} (h : MainStep s pc r eff) {rd : Reading H}
    (hrd : mainReading (s.mainEffect eff).main = some rd) :
    mainReading pc = some rd ∨ rd.version = s.file := by
  cases h with
  | build vr b b' a _ => exact Or.inl hrd
  | rebuild boot vr b b' a _ => exact Or.inl hrd
  | readOk reply vr hver _ => exact Or.inr (Option.some.inj hrd ▸ hver)
  | rereadOk boot reply vr hver _ => exact Or.inr (Option.some.inj hrd ▸ hver)
  | provision boot call apc apc' w reply _ =>
    exact absurd (hrd.symm.trans (StartupWatch.mainReading_provision boot call apc')) (by simp)
  | watch boot reply mtime _ =>
    simp only [ProxyServer.State.mainEffect] at hrd
    split at hrd <;> cases hrd
  | _ => cases hrd

theorem working_reload {s : ProxyServer.State H} {pc : ReloadPc H} {r : ProxyServer.Reply}
    {eff : ProxyServer.ReloadEffect H} (h : ReloadStep s pc r eff) {rd : Reading H}
    (hrd : (s.reloadEffect eff).reload.bind heldByReload = some rd) :
    heldByReload pc = some rd ∨ rd.version = s.file := by
  cases h with
  | build mtime vr b b' a _ => exact Or.inl hrd
  | readOk mtime reply vr hver _ => exact Or.inr (Option.some.inj hrd ▸ hver)
  | _ => cases hrd

theorem held_startProvision {store : Bool} {rr : RenewalReading H} {rd : Reading H}
    (h : heldByRenewal (ProxyServer.startProvision store rr) = some rd) : rr.toReading = rd := by
  unfold ProxyServer.startProvision at h
  split at h
  · exact Option.some.inj h
  · split at h
    · cases h
    · exact Option.some.inj h

theorem held_afterProvision {rr : RenewalReading H} {call : AcmeProvision.Call}
    {pc : AcmeProvision.Pc} {rd : Reading H}
    (h : heldByRenewal (ProxyServer.afterRenewalProvision rr call pc) = some rd) :
    rr.toReading = rd := by
  rcases ProxyServer.afterRenewalProvision_cases rr call pc with hpc | ⟨_, _, hpc⟩ | ⟨_, _, hpc⟩ <;>
    rw [hpc] at h
  · exact Option.some.inj h
  · exact Option.some.inj h
  · cases h

theorem working_renewal {s : ProxyServer.State H} {pc : RenewalPc H} {r : ProxyServer.Reply}
    {eff : ProxyServer.RenewalEffect H} (h : RenewalStep s pc r eff) {rd : Reading H}
    (hrd : (s.renewalEffect eff).renewal.bind heldByRenewal = some rd) :
    heldByRenewal pc = some rd ∨ rd.version = s.file := by
  cases h with
  | readOk reply rr hver _ => exact Or.inr (Option.some.inj hrd ▸ hver)
  | certFound rr reply _ => exact Or.inl hrd
  | build rr b b' a _ => exact Or.inl hrd
  | certMissing rr reply _ => exact Or.inl (congrArg some (held_startProvision hrd))
  | due rr reply res _ _ => exact Or.inl (congrArg some (held_startProvision hrd))
  | provision rr call apc apc' w reply _ => exact Or.inl (congrArg some (held_afterProvision hrd))
  | _ => cases hrd

theorem working_step {s t : ProxyServer.State H} {e : ProxyServer.Event}
    (h : ProxyServer.Step s e t) {w : Writer} {rd : Reading H} (hw : working t w = some rd) :
    working s w = some rd ∨ rd.version = s.file := by
  cases h with
  | main r eff he =>
    cases w with
    | main => exact working_main (ProxyServer.mainStep_cases he) hw
    | reload | renewal => cases eff <;> first | exact Or.inl hw | cases hw
  | reload r pc eff hpc he =>
    cases w with
    | reload =>
      have hpc' : working s .reload = heldByReload pc := by simp [working, hpc]
      rw [hpc']
      exact working_reload (ProxyServer.reloadStep_cases he) hw
    | main | renewal => left; cases eff <;> exact hw
  | renewal r pc eff hpc he =>
    cases w with
    | renewal =>
      have hpc' : working s .renewal = heldByRenewal pc := by simp [working, hpc]
      rw [hpc']
      exact working_renewal (ProxyServer.renewalStep_cases he) hw
    | main | reload => left; cases eff <;> exact hw
  | acceptError m ha => cases w <;> first | exact Or.inl hw | cases hw
  | shutdown ha => cases w <;> first | exact Or.inl hw | cases hw
  | _ => left; cases w <;> exact hw

theorem storing_working {s : ProxyServer.State H} {e : ProxyServer.Event} {w : Writer}
    {p : Publication H} (h : storing s e = some (w, p)) : working s w = some p.toReading := by
  cases w with
  | main =>
    rcases ProxyServer.storing_main h with ⟨r, view, hm, hr, _⟩ | ⟨boot, r, view, hm, hr⟩ <;>
      simp [working, hm, mainReading, hr]
  | reload =>
    obtain ⟨_, _, vr, view, _, hpc, _, hr, _⟩ := ProxyServer.storing_reload h
    simp [working, hpc, heldByReload, hr]
  | renewal =>
    obtain ⟨_, rr, view, _, hpc, _, hr, _⟩ := ProxyServer.storing_renewal h
    simp [working, hpc, heldByRenewal, hr]

theorem history_step {s t : ProxyServer.State H} {e : ProxyServer.Event}
    (h : ProxyServer.Step s e t) :
    s.history ⊆ t.history ∧ (t.file = s.file ∨ t.file ∈ t.history) := by
  cases h with
  | writeConfig v => exact ⟨List.subset_cons_self v s.history, Or.inr List.mem_cons_self⟩
  | main r eff he => cases eff <;> exact ⟨fun _ hv => hv, Or.inl rfl⟩
  | reload r pc eff hpc he => cases eff <;> exact ⟨fun _ hv => hv, Or.inl rfl⟩
  | renewal r pc eff hpc he => cases eff <;> exact ⟨fun _ hv => hv, Or.inl rfl⟩
  | _ => exact ⟨fun _ hv => hv, Or.inl rfl⟩

theorem fromDisk_step {s t : ProxyServer.State H} {e : ProxyServer.Event} (hs : FromDisk s)
    (h : ProxyServer.Step s e t) : FromDisk t := by
  obtain ⟨hgrow, hfile⟩ := history_step h
  refine ⟨?_, ?_, ?_⟩
  · rcases hfile with hsame | hnew
    · rw [hsame]
      exact hgrow hs.file
    · exact hnew
  · intro w rd hw
    rcases working_step h hw with hold | hnew
    · exact hgrow (hs.working w rd hold)
    · rw [hnew]
      exact hgrow hs.file
  · intro p hp
    rw [ProxyServer.step_log h] at hp
    rcases List.mem_append.mp hp with hnew | hold
    · obtain ⟨⟨w, p'⟩, hst, rfl⟩ := Option.map_eq_some_iff.mp (Option.mem_toList.mp hnew)
      exact hgrow (hs.working w _ (storing_working hst))
    · exact hgrow (hs.logged p hold)

theorem handed_step {s t : ProxyServer.State H} {e : ProxyServer.Event}
    (h : ProxyServer.Step s e t) : t.handed = s.handed ∨
      ∃ p, s.published = some p ∧ t.handed = ⟨p, p.state.tls.isSome⟩ :: s.handed := by
  cases h with
  | dispatch n p head => exact Or.inr ⟨p, head, rfl⟩
  | main r eff he => left; cases eff <;> rfl
  | reload r pc eff hpc he => left; cases eff <;> rfl
  | renewal r pc eff hpc he => left; cases eff <;> rfl
  | _ => exact Or.inl rfl

theorem connection_step {s : State H} {t : ProxyServer.State H} {e : ProxyServer.Event}
    (h : ProxyServer.Step s.server e t) {c : ℕ} {handoff : ProxyServer.Handoff H}
    (hc : s.connection c = some handoff) : (s.advance t).connection c = some handoff := by
  unfold State.connection at hc ⊢
  rcases handed_step h with hsame | ⟨p, _, hcons⟩
  · rw [← hc]
    simp only [State.advance, hsame]
  · obtain ⟨hlt, _⟩ := List.getElem?_eq_some_iff.mp hc
    simpa [State.advance, hcons, List.getElem?_append_left hlt] using hc

/-- Every connection was given to its handler by a published state; every request came on one
of them, and has loaded none but published states. -/
structure Traced (arrivals : ℕ → Arrival) (peers : ℕ → String) (s : State H) : Prop where
  disk : FromDisk s.server
  handed : ∀ handoff ∈ s.server.handed, handoff.publication ∈ s.server.log ∧
    handoff.tls = handoff.publication.state.tls.isSome
  begun : ∀ i c, s.begun i = some c → ∃ handoff, s.connection c = some handoff ∧
    (arrivals i).isTls = handoff.tls ∧ (arrivals i).clientIp = peers c
  unbegun : ∀ r, s.serving = some r → ∀ i, s.begun i = none → (r.mediation i).pc = .start
  loaded : ∀ r, s.serving = some r → ∀ i, ∀ state ∈ (r.mediation i).loaded,
    ∃ p ∈ s.server.log, p.state = state

theorem boot_traced (arrivals : ℕ → Arrival) (peers : ℕ → String) (H : Host) (file : FileVersion)
    (dirs : String → CertificateCache.CacheDir) (instant wall : ℕ) :
    Traced arrivals peers (boot H file dirs instant wall) where
  disk := boot_fromDisk H file dirs instant wall
  handed := by intro handoff hh; cases hh
  begun := by intro i c hc; cases hc
  unbegun := by intro r hr; cases hr
  loaded := by intro r hr; cases hr

variable {arrivals : ℕ → Arrival} {peers : ℕ → String} {hostParses : String → Bool}

theorem loaded_step {req : Request} {m m' : RequestMediation.State} {e : RequestMediation.Event}
    (h : RequestMediation.next req m e = some m') {state : ProxyState.AppState}
    (hs : state ∈ m'.loaded) : state ∈ m.loaded ∨ state = m.current := by
  cases RequestMediation.next_cases h with
  | load | healthText => simpa using hs
  | _ => exact Or.inl hs

theorem traced_server {s : State H} {e : ProxyServer.Event} {t : ProxyServer.State H}
    (hs : Traced arrivals peers s) (h : ProxyServer.Step s.server e t) :
    Traced arrivals peers (s.advance t) := by
  have hgrow : s.server.log ⊆ t.log := by
    rw [ProxyServer.step_log h]
    exact List.subset_append_right _ _
  refine ⟨fromDisk_step hs.disk h, ?_, ?_, ?_, ?_⟩
  · intro handoff hh
    have hh : handoff ∈ t.handed := hh
    rcases handed_step h with hsame | ⟨p, hp, hcons⟩
    · rw [hsame] at hh
      exact ⟨hgrow (hs.handed handoff hh).1, (hs.handed handoff hh).2⟩
    · rw [hcons] at hh
      rcases List.mem_cons.mp hh with rfl | hh
      · exact ⟨hgrow (List.mem_of_mem_head? hp), rfl⟩
      · exact ⟨hgrow (hs.handed handoff hh).1, (hs.handed handoff hh).2⟩
  · intro i c hc
    obtain ⟨handoff, hconn, hrest⟩ := hs.begun i c hc
    exact ⟨handoff, connection_step h hconn, hrest⟩
  · intro r hr i hi
    obtain ⟨p, hp, hreq⟩ := Option.map_eq_some_iff.mp (show s.requests t = some r from hr)
    cases hserving : s.serving with
    | none =>
      rw [hserving] at hreq
      rw [← hreq]
      rfl
    | some r₀ =>
      rw [hserving] at hreq
      rw [← hreq]
      exact hs.unbegun r₀ hserving i hi
  · intro r hr i state hstate
    obtain ⟨p, hp, hreq⟩ := Option.map_eq_some_iff.mp (show s.requests t = some r from hr)
    cases hserving : s.serving with
    | none =>
      rw [hserving] at hreq
      rw [← hreq] at hstate
      cases hstate
    | some r₀ =>
      rw [hserving] at hreq
      rw [← hreq] at hstate
      obtain ⟨q, hq, hqs⟩ := hs.loaded r₀ hserving i state hstate
      exact ⟨q, hgrow hq, hqs⟩

theorem traced_step {s t : State H} {e : Event} (hc : Consistent s) (hs : Traced arrivals peers s)
    (h : Step arrivals peers hostParses s e t) : Traced arrivals peers t := by
  cases h with
  | server e t' ht => exact traced_server hs (ProxyServer.step_of_next ht)
  | request i c handoff new conn tls peer =>
    refine ⟨hs.disk, hs.handed, ?_, ?_, hs.loaded⟩
    · intro j d hd
      by_cases hj : j = i
      · subst hj
        obtain rfl : c = d := by simpa [State.begin] using hd
        exact ⟨handoff, conn, tls, peer⟩
      · exact hs.begun j d (by simpa [State.begin, hj] using hd)
    · intro r hr j hj
      refine hs.unbegun r hr j ?_
      by_cases hji : j = i
      · subst hji
        exact new
      · simpa [State.begin, hji] using hj
  | serve e r r' permitted live hn =>
    obtain ⟨hstore, hflag⟩ := permits_not_store permitted
    have hcases := mediation_cases hstore hflag (RequestServing.step_of_next _ _ hn)
    refine ⟨hs.disk, hs.handed, hs.begun, ?_, ?_⟩
    · intro r₁ hr₁ i hi
      obtain rfl := Option.some.inj hr₁
      rcases hcases i with hsame | ⟨hsub, _⟩
      · rw [hsame]
        exact hs.unbegun r live i hi
      · have hsome := permits_begun permitted hsub
        simp [show s.begun i = none from hi] at hsome
    · intro r₁ hr₁ i state hstate
      obtain rfl := Option.some.inj hr₁
      rcases hcases i with hsame | ⟨_, a, _, _, hm⟩
      · rw [hsame] at hstate
        exact hs.loaded r live i state hstate
      · rcases loaded_step hm hstate with hold | rfl
        · exact hs.loaded r live i state hold
        · obtain ⟨p, hp, hread⟩ := published_of_serving hc live
          exact ⟨p, List.mem_of_mem_head? hp, (hread i).1.symm⟩

section Wire

open UpstreamForward (Call CallStep buildRequest)
open ConnectionExclusivity (Ownership addrOf sender)
open ForwardTransparency (carries)
open ServedCalls (CalledIn)

variable {calls : ℕ → Call} {called : ℕ → Prop}

theorem carries_step {s t : UpstreamForward.State} {e : UpstreamForward.Event}
    (h : UpstreamForward.Step calls s e t) {i : ℕ} {req : Request}
    (hc : carries (t.pc i) = some req) : carries (s.pc i) = some req ∨
      (∃ act, e = .call i act) ∧ req = buildRequest (calls i) := by
  rcases ForwardTransparency.forward_cases h i with ⟨act, rfl, hcall⟩ | ⟨_, hpc⟩
  · cases hcall with
    | move hm =>
      rw [UpstreamForward.goto_pc_self] at hc
      exact (ForwardTransparency.moves_carries hm hc).imp id fun hb => ⟨⟨_, rfl⟩, hb⟩
    | failed req' c retry e hp ho =>
      rw [UpstreamForward.goto_pc_self] at hc
      left
      rw [hp, ForwardTransparency.carries_afterSendError req' retry e hc]
      rfl
    | reuse req' c hp | opened req' retry hp | sent req' c retry hp =>
      rw [UpstreamForward.goto_pc_self] at hc
      left
      rw [hp]
      exact hc
    | answered req' retry k x resp hp | kept c resp hp =>
      rw [UpstreamForward.goto_pc_self] at hc
      cases hc
  · left
    rwa [← hpc]

theorem exchanges_step {s t : UpstreamForward.State} {e : UpstreamForward.Event}
    (h : UpstreamForward.Step calls s e t) {y : UpstreamForward.Exchange}
    (hy : y ∈ t.exchanges) :
    (∃ x ∈ s.exchanges, x.call = y.call ∧ x.conn = y.conn ∧ x.req = y.req) ∨
      sender (s.pc y.call) = some y.conn ∧ carries (s.pc y.call) = some y.req := by
  have marked : ∀ {k : ℕ} {x z : UpstreamForward.Exchange}, s.exchanges[k]? = some x →
      z.call = x.call → z.conn = x.conn → z.req = x.req → y ∈ s.exchanges.set k z →
        ∃ x ∈ s.exchanges, x.call = y.call ∧ x.conn = y.conn ∧ x.req = y.req := by
    intro k x z hk hcall hconn hreq hm
    rcases List.mem_or_eq_of_mem_set hm with hold | rfl
    · exact ⟨y, hold, rfl, rfl, rfl⟩
    · exact ⟨x, List.mem_of_getElem? hk, hcall.symm, hconn.symm, hreq.symm⟩
  cases h with
  | call i act _ hcall =>
    cases hcall with
    | sent req c retry hp ho =>
      rcases List.mem_append.mp hy with hold | hnew
      · exact Or.inl ⟨y, hold, rfl, rfl, rfl⟩
      · obtain rfl := List.mem_singleton.mp hnew
        exact Or.inr ⟨by rw [hp]; rfl, by rw [hp]; rfl⟩
    | answered req retry k x resp hp hf hx =>
      exact Or.inl (marked (z := { x with headed := true }) (UpstreamForward.first_getElem hf)
        rfl rfl rfl hy)
    | _ => exact Or.inl ⟨y, hy, rfl, rfl, rfl⟩
  | receive k x hk hr =>
    exact Or.inl (marked (z := { x with received := true }) hk rfl rfl rfl hy)
  | drain k x hf hh => exact Or.inl ⟨y, (List.eraseIdx_sublist ..).subset hy, rfl, rfl, rfl⟩
  | close c conn hc => exact Or.inl ⟨y, List.mem_of_mem_filter hy, rfl, rfl, rfl⟩

theorem delivered_step {s t : UpstreamForward.State} {e : UpstreamForward.Event}
    (h : UpstreamForward.Step calls s e t) {d : UpstreamForward.Delivery}
    (hd : d ∈ t.delivered) :
    d ∈ s.delivered ∨ ∃ x ∈ s.exchanges, d = ⟨x.call, x.conn, x.req⟩ := by
  cases h with
  | receive k x hk hr =>
    rcases List.mem_cons.mp hd with rfl | hold
    · exact Or.inr ⟨x, List.mem_of_getElem? hk, rfl⟩
    · exact Or.inl hold
  | call i act _ hcall => left; cases hcall <;> exact hd
  | _ => exact Or.inl hd

/-- What a call has built, has on the wire or has had delivered is its own request, and the
connection it is on leads to the call's upstream. -/
structure Wired (calls : ℕ → Call) (called : ℕ → Prop) (s : UpstreamForward.State) : Prop where
  owner : Ownership calls s
  carried : ∀ i req, carries (s.pc i) = some req → called i ∧ req = buildRequest (calls i)
  exchanged : ∀ x ∈ s.exchanges, called x.call ∧ x.req = buildRequest (calls x.call) ∧
    addrOf s x.conn = some (calls x.call).upstreamAddr
  delivered : ∀ d ∈ s.delivered, called d.call ∧ d.req = buildRequest (calls d.call) ∧
    addrOf s d.conn = some (calls d.call).upstreamAddr

theorem boot_wired (calls : ℕ → Call) (called : ℕ → Prop) (maxIdlePerHost : ℕ) :
    Wired calls called (UpstreamForward.boot maxIdlePerHost) where
  owner := ConnectionExclusivity.boot_ownership calls maxIdlePerHost
  carried := by intro i req hc; cases hc
  exchanged := by intro x hx; cases hx
  delivered := by intro d hd; cases hd

theorem wired_step {s t : UpstreamForward.State} {e : UpstreamForward.Event}
    (hs : Wired calls called s) (hc : CalledIn called s e) (h : UpstreamForward.Step calls s e t) :
    Wired calls called t := by
  have hkeep : ∀ {c a}, addrOf s c = some a → addrOf t c = some a :=
    fun ha => (PoolInvariant.addrOf_step h).mpr (Or.inl ha)
  refine ⟨ConnectionExclusivity.ownership_step hs.owner h, ?_, ?_, ?_⟩
  · intro i req hreq
    rcases carries_step h hreq with hold | ⟨⟨act, rfl⟩, hbuilt⟩
    · exact hs.carried i req hold
    · exact ⟨hc i act rfl, hbuilt⟩
  · intro y hy
    rcases exchanges_step h hy with ⟨x, hx, hcall, hconn, hreq⟩ | ⟨hsender, hreq⟩
    · rw [← hcall, ← hconn, ← hreq]
      obtain ⟨hx₁, hx₂, hx₃⟩ := hs.exchanged x hx
      exact ⟨hx₁, hx₂, hkeep hx₃⟩
    · obtain ⟨hcalled, hbuilt⟩ := hs.carried _ _ hreq
      exact ⟨hcalled, hbuilt, hkeep (hs.owner.senderAddr _ _ hsender)⟩
  · intro d hd
    rcases delivered_step h hd with hold | ⟨x, hx, rfl⟩
    · obtain ⟨hd₁, hd₂, hd₃⟩ := hs.delivered d hold
      exact ⟨hd₁, hd₂, hkeep hd₃⟩
    · obtain ⟨hx₁, hx₂, hx₃⟩ := hs.exchanged x hx
      exact ⟨hx₁, hx₂, hkeep hx₃⟩

theorem wired_run {maxIdlePerHost : ℕ}
    {tr : List (UpstreamForward.State × UpstreamForward.Event)} {u : UpstreamForward.State}
    (h : Run (UpstreamForward.next calls) (UpstreamForward.boot maxIdlePerHost) tr u)
    (hc : Obeys (CalledIn called) tr) : Wired calls called u :=
  h.invariant_of (fun _ _ _ hs hc hn => wired_step hs hc (UpstreamForward.step_of_next hn))
    (boot_wired calls called maxIdlePerHost) hc

end Wire

/-- The pool is as large as a config says that was read from the file and passed `validate`. -/
def SizedByConfig (s : State H) : Prop :=
  ∃ v ∈ s.server.history, ∃ config, parse H.tomlFromStr v.content = .ok config ∧
    validate config = .ok () ∧ s.maxIdlePerHost = config.server.maxIdleConnections

def Unread (s : ProxyServer.State H) : Prop :=
  s.log = [] ∧ (s.main = .readConfig ∨ ∃ result, s.main = .returned result)

theorem poolCreated_sized {s : State H} {t : ProxyServer.State H} (ht : FromDisk t) {n : ℕ}
    (hn : poolCreated s.server t = some n) : SizedByConfig (s.advance t) := by
  have hmax : (s.advance t).maxIdlePerHost = n := by simp [State.advance, hn]
  unfold poolCreated at hn
  split at hn
  · rename_i r b _ hm
    obtain rfl := Option.some.inj hn
    have hv := ht.working .main r.toReading (by simp [working, mainReading, hm])
    exact ⟨r.version, hv, r.config, r.parsed, r.valid, hmax⟩
  · cases hn

theorem unread_step {s t : ProxyServer.State H} {e : ProxyServer.Event}
    (ho : ProxyServer.Opening s) (hs : Unread s) (h : ProxyServer.Step s e t) :
    Unread t ∨ ∃ n, poolCreated s t = some n := by
  obtain ⟨hlog, hm⟩ := hs
  have quiet : t.main = s.main → t.log = s.log → Unread t := by
    intro hmain hl
    exact ⟨hl.trans hlog, by rw [hmain]; exact hm⟩
  have closed : s.accepting = true → False := by
    rcases hm with hm | ⟨result, hm⟩ <;> simp [ProxyServer.State.accepting, hm]
  cases h with
  | reload r pc eff hpc he => exact absurd hlog (ho.of_reload hpc)
  | renewal r pc eff hpc he => exact absurd hlog (ho.of_renewal hpc)
  | accept ha | acceptError m ha | shutdown ha => exact absurd ha closed
  | main r eff he =>
    rcases hm with hm | ⟨result, hm⟩
    · rw [hm] at he
      cases ProxyServer.mainStep_cases he with
      | leave _ _ m => exact Or.inl ⟨hlog, Or.inr ⟨_, rfl⟩⟩
      | readOk reply vr hver hat =>
        exact Or.inr ⟨_, by simp only [poolCreated, hm, ProxyServer.State.mainEffect]; rfl⟩
    · rw [hm] at he
      cases r with
      | call a => cases a <;> cases he
      | _ => cases he
  | _ => exact Or.inl (quiet rfl rfl)

def Sized (s : State H) : Prop := SizedByConfig s ∨ Unread s.server

theorem sized_step {s t : State H} {e : Event} (hc : Consistent s)
    (hd : FromDisk s.server) (hs : Sized s) (h : Step arrivals peers hostParses s e t) :
    Sized t := by
  cases h with
  | request i c handoff new conn tls peer => exact hs
  | serve e r r' permitted live hn => exact hs
  | server e t' ht =>
    have hstep := ProxyServer.step_of_next ht
    have hd' := fromDisk_step hd hstep
    cases hn : poolCreated s.server t' with
    | some n => exact Or.inl (poolCreated_sized hd' hn)
    | none =>
      rcases hs with ⟨v, hv, config, hparse, hvalid, hmax⟩ | hunread
      · refine Or.inl ⟨v, (history_step hstep).1 hv, config, hparse, hvalid, ?_⟩
        simpa [State.advance, hn] using hmax
      · rcases unread_step hc.health.opening hunread hstep with hun | ⟨n, hsome⟩
        · exact Or.inr hun
        · rw [hn] at hsome
          cases hsome

def Renewed (tr : List (State H × Event)) (p : Publication H) : Prop :=
  ∃ q ∈ tr, ∃ e, q.2 = .server e ∧ storing q.1.server e = some (.renewal, p)

/-- The first route of the config whose prefix is a prefix of the path. -/
def FirstRoute (routes : List RouteConfig) (path : String) (route : RouteConfig) : Prop :=
  ∃ earlier later, routes = earlier ++ route :: later ∧
    route.pathPrefix.toList <+: path.toList ∧
    ∀ r ∈ earlier, ¬ r.pathPrefix.toList <+: path.toList

/-- Where a call of `forward` for request `i` comes from: a config that was in the file and was
validated, unless a renewal published it; its first route for the path, with a chain of plugins
that lets the request pass; and the connection the request came on. -/
structure Origin (arrivals : ℕ → Arrival) (peers : ℕ → String) (hostParses : String → Bool)
    (tr : List (State H × Event)) (u : State H) (i : ℕ) (call : UpstreamForward.Call) : Prop where
  request : call.req = (arrivals i).req ∧ call.hostParses = hostParses call.upstreamAddr
  decided : ∃ p ∈ u.server.log, p.version ∈ u.server.history ∧
    (validate p.config = .ok () ∨ Renewed tr p) ∧
    call.timeoutMs = p.config.server.timeoutMs ∧
    ∃ rs ∈ p.state.routes, FirstRoute p.config.routes (arrivals i).req.uri.path rs.route ∧
      rs.runtime.runOnRequest (arrivals i).req.method (arrivals i).req.uri.path = some (.ok false) ∧
      call.upstreamAddr = rs.route.upstream
  connection : ∃ c handoff, u.begun i = some c ∧ u.connection c = some handoff ∧
    handoff.publication ∈ u.server.log ∧ call.isTls = handoff.publication.state.tls.isSome ∧
    call.clientIp = peers c

theorem FirstMatch.route {p : Publication H} {path : String} {rs : ProxyState.RouteState}
    (h : FirstMatch p.state.routes path rs) :
    rs ∈ p.state.routes ∧ FirstRoute p.config.routes path rs.route := by
  obtain ⟨earlier, later, heq, hprefix, hall⟩ := h
  refine ⟨by simp [heq], earlier.map (·.route), later.map (·.route), ?_, hprefix, ?_⟩
  · rw [← p.routes.1, heq]
    simp
  · intro r hr
    obtain ⟨rs', hrs', rfl⟩ := List.mem_map.mp hr
    exact hall rs' hrs'

theorem validOrRenewed_step {tr : List (State H × Event)} {s t : State H} {e : Event}
    (hs : ∀ p ∈ s.server.log, validate p.config = .ok () ∨ Renewed tr p)
    (h : Step arrivals peers hostParses s e t) :
    ∀ p ∈ t.server.log, validate p.config = .ok () ∨ Renewed (tr ++ [(s, e)]) p := by
  have hmono : ∀ p : Publication H, Renewed tr p → Renewed (tr ++ [(s, e)]) p := by
    rintro p ⟨q, hq, hrest⟩
    exact ⟨q, List.mem_append_left _ hq, hrest⟩
  have hold : ∀ p ∈ s.server.log, validate p.config = .ok () ∨ Renewed (tr ++ [(s, e)]) p :=
    fun p hp => (hs p hp).imp id (hmono p)
  cases h with
  | request i c handoff new conn tls peer => exact hold
  | serve e r r' permitted live hn => exact hold
  | server e t' ht =>
    intro p hp
    have hp : p ∈ t'.log := hp
    rw [ProxyServer.step_log (ProxyServer.step_of_next ht)] at hp
    rcases List.mem_append.mp hp with hnew | hp
    · obtain ⟨⟨w, p'⟩, hst, rfl⟩ := Option.map_eq_some_iff.mp (Option.mem_toList.mp hnew)
      by_cases hw : w = .renewal
      · subst hw
        exact Or.inr ⟨(s, .server e), by simp, e, rfl, hst⟩
      · exact Or.inl (ProxyServer.storing_valid hst hw)
    · exact hold p hp

structure Recorded (arrivals : ℕ → Arrival) (peers : ℕ → String) (tr : List (State H × Event))
    (u : State H) : Prop where
  consistent : Consistent u
  traced : Traced arrivals peers u
  sized : Sized u
  published : ∀ p ∈ u.server.log, validate p.config = .ok () ∨ Renewed tr p

theorem recorded_run {file : FileVersion} {dirs : String → CertificateCache.CacheDir}
    {instant wall : ℕ} {u : State H} {tr : List (State H × Event)}
    (h : Run (next arrivals peers hostParses) (boot H file dirs instant wall) tr u) :
    Recorded arrivals peers tr u := by
  refine h.traced_invariant (I := Recorded arrivals peers) ?_ ?_
  · exact ⟨boot_consistent H file dirs instant wall, boot_traced arrivals peers H file dirs instant
      wall, Or.inr ⟨rfl, Or.inl rfl⟩, by intro p hp; cases hp⟩
  · intro tr s e t hs hn
    have hstep := step_of_next _ _ _ hn
    exact ⟨consistent_step hs.consistent hstep, traced_step hs.consistent hs.traced hstep,
      sized_step hs.consistent hs.traced.disk hs.sized hstep,
      validOrRenewed_step hs.published hstep⟩

theorem Recorded.origin {tr : List (State H × Event)} {u : State H} {r : RequestServing.State}
    (h : Recorded arrivals peers tr u) (hr : u.serving = some r) {i : ℕ}
    (hm : Mediated (arrivals i).req (r.mediation i)) (hi : (r.mediation i).contacted ≠ []) :
    Origin arrivals peers hostParses tr u i (ServedCalls.callsOf arrivals hostParses r i) := by
  obtain ⟨⟨upstream, timeoutMs⟩, rest, hc⟩ := List.exists_cons_of_ne_nil hi
  have hcomplete := hm.complete
  have hadm := hcomplete.onlyAdmitted upstream timeoutMs (by simp [hc])
  obtain ⟨state, rs, hl, hmatch, _, hplugins, rfl, rfl⟩ := hadm
  obtain ⟨p, hp, rfl⟩ := h.traced.loaded r hr i state (by simp [hl])
  have hcall : ServedCalls.callsOf arrivals hostParses r i =
      ⟨(arrivals i).req, rs.route.upstream, hostParses rs.route.upstream, p.state.timeoutMs,
        (arrivals i).clientIp, (arrivals i).isTls⟩ := by
    simp [ServedCalls.callsOf, ServedCalls.callFor, hc]
  rw [hcall]
  refine ⟨⟨rfl, rfl⟩, ?_, ?_⟩
  · obtain ⟨hmem, hfirst⟩ := FirstMatch.route hmatch
    refine ⟨p, hp, h.traced.disk.logged p hp, h.published p hp,
      (ProxyState.buildState_ok p.built).1, rs, hmem, hfirst, ?_, rfl⟩
    exact ProxyPlugin.runPlugins_pass_iff.mpr hplugins
  · cases hb : u.begun i with
    | none =>
      have hstart := h.traced.unbegun r hr i hb
      simp only [Mediated, hstart] at hm
      rw [hm.2.2] at hc
      cases hc
    | some c =>
      obtain ⟨handoff, hconn, htls, hpeer⟩ := h.traced.begun i c hb
      obtain ⟨hpub, htls'⟩ := h.traced.handed handoff
        (List.mem_reverse.mp (List.mem_of_getElem? hconn))
      exact ⟨c, handoff, rfl, hconn, hpub, htls.trans htls', hpeer⟩

/-- What holds of the requests of a run of the whole proxy. -/
structure Provenance (arrivals : ℕ → Arrival) (peers : ℕ → String) (hostParses : String → Bool)
    (tr : List (State H × Event)) (u : State H) (r : RequestServing.State) : Prop where
  delivered : ∀ d ∈ r.forward.delivered, ∃ call,
    Origin arrivals peers hostParses tr u d.call call ∧
    d.req = UpstreamForward.buildRequest call ∧
    ConnectionExclusivity.addrOf r.forward d.conn = some call.upstreamAddr
  inFlight : ∀ x ∈ r.forward.exchanges, ∃ call,
    Origin arrivals peers hostParses tr u x.call call ∧
    x.req = UpstreamForward.buildRequest call ∧
    ConnectionExclusivity.addrOf r.forward x.conn = some call.upstreamAddr
  pool : SizedByConfig u ∧ ∀ a, (r.forward.idle a).length ≤ u.maxIdlePerHost

/-- Whatever the config file, the caches, the loops and the clients do: what reaches an upstream
was decided on by one config that was in the file, and sent where that config says. -/
theorem upstream_provenance (file : FileVersion) (dirs : String → CertificateCache.CacheDir)
    (instant wall : ℕ) {u : State H} {tr : List (State H × Event)}
    (h : Run (next arrivals peers hostParses) (boot H file dirs instant wall) tr u)
    {r : RequestServing.State} (hr : u.serving = some r) :
    Provenance arrivals peers hostParses tr u r := by
  have hrec := recorded_run h
  have hmediated := mediated_run h hr
  obtain ⟨tr', _, hcalled, hforward⟩ := (composed h).forward r hr
  have hwired := wired_run hforward hcalled
  have hbounded : PoolInvariant.Bounded u.maxIdlePerHost r.forward :=
    hforward.invariant (fun _ _ _ hs hn =>
      PoolInvariant.bounded_step hs (UpstreamForward.step_of_next hn))
      ⟨rfl, fun _ => Nat.zero_le _⟩
  refine ⟨?_, ?_, ?_, hbounded.idle⟩
  · intro d hd
    obtain ⟨hi, hreq, haddr⟩ := hwired.delivered d hd
    exact ⟨_, hrec.origin hr (hmediated d.call) hi, hreq, haddr⟩
  · intro x hx
    obtain ⟨hi, hreq, haddr⟩ := hwired.exchanged x hx
    exact ⟨_, hrec.origin hr (hmediated x.call) hi, hreq, haddr⟩
  · rcases hrec.sized with hsized | hunread
    · exact hsized
    · have hnone := hrec.consistent.closed hunread.1
      rw [hnone] at hr
      cases hr

/-- The request of the sample run is delivered where the first version of the file says,
although the second has been loaded by then. -/
theorem upstream_provenance_reloaded : ∃ tr u r, Run sampleNext sampleWhole tr u ∧
    u.serving = some r ∧ r.forward.delivered.map UpstreamForward.Delivery.call = [0] ∧
    Provenance (fun _ => sampleArrival) (fun _ => "10.0.0.7") (fun _ => true) tr u r := by
  obtain ⟨u, hr, hv⟩ := run_of_view sampleNext sampleWhole sampleReloaded sampleView
    (some (["127.0.0.1:3000"], [0], 10)) rfl
  obtain ⟨r, hserving, hview⟩ := Option.map_eq_some_iff.mp hv
  have hdelivered : r.forward.delivered.map UpstreamForward.Delivery.call = [0] := by
    simp only [Prod.mk.injEq] at hview
    exact hview.2.1
  exact ⟨_, u, r, hr, hserving, hdelivered, upstream_provenance _ _ _ _ hr hserving⟩

end RequestProvenance
