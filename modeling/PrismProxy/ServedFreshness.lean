import PrismProxy.RequestProvenance

/-! # How fresh the config is that a request is decided on

A request loads the published state once. What it loads is at least as new as everything
published before, as long as no loop stores after it was overtaken; and after a quiet tick of
the reload loop it is at least as new as the file was. -/
namespace ServedFreshness

open TransitionRuns ProxyConfig StatePublication WholeProxy RequestProvenance
open PublicationOrder (LoopsStarted Increasing NotOvertaken NoWrite TickLoads FreshAfterTick
  InOrder Current Versions)
open RequestMediation (Mediated)
open RequestServing (Arrival)

variable {H : Host} {arrivals : ℕ → Arrival} {peers : ℕ → String} {hostParses : String → Bool}

/-- The states request `i` has loaded. -/
def loadedBy (s : State H) (i : ℕ) : List ProxyState.AppState :=
  record RequestMediation.State.loaded s i

theorem load_cases {req : HttpMessage.Request} {m m' : RequestMediation.State}
    {e : RequestMediation.Event} (hm : Mediated req m)
    (h : RequestMediation.next req m e = some m') :
    m'.loaded = m.loaded ∨ (m.loaded = [] ∧ m'.loaded = [m.current]) := by
  cases RequestMediation.next_cases h with
  | load pc =>
    simp only [Mediated, pc] at hm
    exact Or.inr ⟨hm.1, by simp [hm.1]⟩
  | healthText body pc =>
    simp only [Mediated, pc] at hm
    exact Or.inr ⟨hm.1, by simp [hm.1]⟩
  | _ => exact Or.inl rfl

theorem loadedBy_step {s t : State H} {e : Event} (hc : Consistent s)
    (hm : ∀ r, s.serving = some r → ServedCalls.AllMediated arrivals r)
    (h : Step arrivals peers hostParses s e t) (i : ℕ) :
    loadedBy t i = loadedBy s i ∨ (loadedBy s i = [] ∧ t.server = s.server ∧
      ∃ p, s.server.published = some p ∧ loadedBy t i = [p.state]) := by
  rcases record_step (f := RequestMediation.State.loaded) (fun _ _ => rfl) (fun _ _ _ => rfl)
    hc h i with hsame | ⟨hserver, r, r', a, hr, hr', ha⟩
  · exact Or.inl hsame
  · rw [loadedBy, loadedBy, record_serving hr, record_serving hr']
    apply (load_cases (hm r hr i) ha).imp id
    rintro ⟨hnil, hnew⟩
    obtain ⟨p, hp, hread⟩ := published_of_serving hc hr
    exact ⟨hnil, hserver, p, hp, by rw [hnew, (hread i).1]⟩

/-- A condition on the steps of the server, in a run of the whole proxy. -/
def OnServer (C : ProxyServer.State H → ProxyServer.Event → Prop) (s : State H) : Event → Prop
  | .server e => C s.server e
  | _ => True

theorem serverTrace_append (a b : List (State H × Event)) :
    serverTrace (a ++ b) = serverTrace a ++ serverTrace b := List.filterMap_append

theorem serverTrace_server (s : State H) (e : ProxyServer.Event) (tr : List (State H × Event)) :
    serverTrace ((s, .server e) :: tr) = (s.server, e) :: serverTrace tr := rfl

theorem onServer_iff {C : ProxyServer.State H → ProxyServer.Event → Prop}
    {tr : List (State H × Event)} : Obeys (OnServer C) tr ↔ Obeys C (serverTrace tr) := by
  induction tr with
  | nil => simp [serverTrace]
  | cons p tr ih =>
    obtain ⟨s, e⟩ := p
    rw [obeys_cons, ih]
    cases e with
    | server e => rw [serverTrace_server, obeys_cons, OnServer]
    | request j c => exact ⟨fun h => h.2, fun h => ⟨trivial, h⟩⟩
    | serve e => exact ⟨fun h => h.2, fun h => ⟨trivial, h⟩⟩

/-- Since a tick of the reload loop began nothing has been written, and a tick has gone well. -/
def QuietTick (tr : List (State H × Event)) : Prop :=
  ∃ before t after, tr = before ++ (t, .server (.reload .proceed)) :: after ∧
    t.server.reload = some .tick ∧ Obeys (OnServer NoWrite) after ∧
    ∃ p ∈ after, ∃ e, p.2 = .server e ∧ TickLoads p.1.server e

theorem QuietTick.current {tr : List (State H × Event)} {x : State H} (hq : QuietTick tr)
    (hf : FreshAfterTick (serverTrace tr) x.server) : Current x.server := by
  obtain ⟨before, t, after, rfl, htick, hquiet, ⟨y, _⟩, hy, e, rfl, hloads⟩ := hq
  rw [serverTrace_append, serverTrace_server] at hf
  refine hf _ _ _ rfl htick (onServer_iff.mp hquiet) ⟨(y.server, e), ?_, hloads⟩
  exact List.mem_filterMap.mpr ⟨_, hy, rfl⟩

theorem published_newest {s : ProxyServer.State H} (ho : InOrder s) {q : Publication H}
    (hq : s.published = some q) {p : Publication H} (hp : p ∈ s.log) :
    p.version.mtime ≤ q.version.mtime := by
  cases hlog : s.log with
  | nil => rw [hlog] at hp; cases hp
  | cons q' rest =>
    obtain rfl : q' = q := by simpa [ProxyServer.State.published, hlog] using hq
    have hord : SnapshotRegister.Ordered
        (q'.version.mtime :: rest.map fun p => p.version.mtime) := by
      simpa [InOrder, PublicationOrder.mtimes, hlog] using ho
    apply hord.le_head
    rw [hlog] at hp
    exact List.mem_map_of_mem (f := fun p => p.version.mtime) hp

/-- The request has loaded nothing, or a state no older than any of `old`. -/
def LoadsSince (old : List (Publication H)) (s : State H) (j : ℕ) : Prop :=
  loadedBy s j = [] ∨ ∃ q ∈ s.server.log, loadedBy s j = [q.state] ∧
    ∀ p ∈ old, p.version.mtime ≤ q.version.mtime

theorem log_step {s t : State H} {e : Event} (h : Step arrivals peers hostParses s e t) :
    s.server.log ⊆ t.server.log := by
  cases h with
  | server e t' ht =>
    show s.server.log ⊆ t'.log
    rw [ProxyServer.step_log (ProxyServer.step_of_next ht)]
    exact List.subset_append_right _ _
  | _ => exact fun _ hp => hp

theorem loadsSince_step {old : List (Publication H)} {s t : State H} {e : Event} {j : ℕ}
    (hc : Consistent s) (hm : ∀ r, s.serving = some r → ServedCalls.AllMediated arrivals r)
    (ho : InOrder s.server) (hold : old ⊆ s.server.log) (hs : LoadsSince old s j)
    (h : Step arrivals peers hostParses s e t) : LoadsSince old t j := by
  rcases loadedBy_step hc hm h j with hsame | ⟨_, hserver, q, hq, hloaded⟩
  · rw [LoadsSince, hsame]
    apply hs.imp id
    rintro ⟨q, hmem, hrest⟩
    exact ⟨q, log_step h hmem, hrest⟩
  · refine Or.inr ⟨q, ?_, hloaded, ?_⟩
    · rw [hserver]
      exact List.mem_of_mem_head? hq
    · intro p hp
      exact published_newest ho hq (hold hp)

section Runs

variable {file : FileVersion} {dirs : String → CertificateCache.CacheDir} {instant wall : ℕ}
  {s x u : State H} {tr₀ tr tr' : List (State H × Event)}

theorem loadsSince_run
    (h₀ : Run (next arrivals peers hostParses) (boot H file dirs instant wall) tr₀ s)
    (hs : LoopsStarted s.server) (h : Run (next arrivals peers hostParses) s tr x)
    (h' : Run (next arrivals peers hostParses) x tr' u)
    (hinc : Obeys (OnServer Increasing) (tr ++ tr'))
    (hno : Obeys (OnServer NotOvertaken) (tr ++ tr')) {j : ℕ} (hj : loadedBy x j = []) :
    LoadsSince x.server.log u j := by
  suffices hboth : x.server.log ⊆ u.server.log ∧ LoadsSince x.server.log u j from hboth.2
  induction h' with
  | nil => exact ⟨fun _ hp => hp, Or.inl hj⟩
  | @snoc tr' v e w hr hn ih =>
    rw [← List.append_assoc] at hinc hno
    obtain ⟨hinc, _⟩ := obeys_append.mp hinc
    obtain ⟨hno, _⟩ := obeys_append.mp hno
    obtain ⟨hgrow, hsince⟩ := ih hinc hno
    have hstep := step_of_next _ _ _ hn
    have hboot := h₀.trans (h.trans hr)
    have horder : InOrder v.server :=
      (PublicationOrder.inOrder_iff hs (server_run (h.trans hr)) (onServer_iff.mp hinc)).mpr
        (onServer_iff.mp hno)
    refine ⟨fun _ hp => log_step hstep (hgrow hp), ?_⟩
    exact loadsSince_step (servedAlone_run hboot).1 (fun r hserving => mediated_run hboot hserving)
      horder hgrow hsince hstep

/-- What request `j` is decided on at `u`, if on anything, when it had loaded nothing at `x`: one
published config, as new as whatever was published by then, and after a quiet tick as new as the
file was; with no write since, the file itself. -/
structure DecidedFresh (arrivals : ℕ → Arrival) (tr tr' : List (State H × Event)) (x u : State H)
    (j : ℕ) (q : Publication H) : Prop where
  loaded : q ∈ u.server.log ∧ loadedBy u j = [q.state]
  newest : ∀ p ∈ x.server.log, p.version.mtime ≤ q.version.mtime
  fresh : QuietTick tr → x.server.file.mtime ≤ q.version.mtime
  current : QuietTick tr → Obeys (OnServer NoWrite) tr' → q.version = u.server.file
  contacted : ∀ r, u.serving = some r → ∀ upstream timeoutMs,
    (upstream, timeoutMs) ∈ (r.mediation j).contacted →
      timeoutMs = q.config.server.timeoutMs ∧ ∃ route,
        FirstRoute q.config.routes (arrivals j).req.uri.path route ∧ upstream = route.upstream

theorem file_quiet (h : Run (next arrivals peers hostParses) x tr' u)
    (hquiet : Obeys (OnServer NoWrite) tr') : u.server.file = x.server.file := by
  have hrun := server_run h
  exact hrun.invariant_of (I := fun v => v.file = x.server.file) (C := NoWrite)
    (fun _ _ _ hv hw hn =>
      (PublicationOrder.file_of_noWrite hw (ProxyServer.step_of_next hn)).trans hv) rfl
    (onServer_iff.mp hquiet)

/-- With increasing modification times and no store after a loop was overtaken, from the moment
the loops have been started. -/
theorem served_fresh
    (h₀ : Run (next arrivals peers hostParses) (boot H file dirs instant wall) tr₀ s)
    (hs : LoopsStarted s.server) (h : Run (next arrivals peers hostParses) s tr x)
    (h' : Run (next arrivals peers hostParses) x tr' u)
    (hinc : Obeys (OnServer Increasing) (tr ++ tr'))
    (hno : Obeys (OnServer NotOvertaken) (tr ++ tr')) {j : ℕ} (hj : loadedBy x j = []) :
    loadedBy u j = [] ∨ ∃ q, DecidedFresh arrivals tr tr' x u j q := by
  rcases loadsSince_run h₀ hs h h' hinc hno hj with hnil | ⟨q, hq, hloaded, hnew⟩
  · exact Or.inl hnil
  have hfresh : QuietTick tr → x.server.file.mtime ≤ q.version.mtime := by
    intro hquiet
    have htick := PublicationOrder.fresh_of_notOvertaken hs (server_run h)
      (onServer_iff.mp (obeys_append.mp hinc).1) (onServer_iff.mp (obeys_append.mp hno).1)
    obtain ⟨p, hp, hver⟩ := hquiet.current htick
    rw [← hver]
    exact hnew p (List.mem_of_mem_head? hp)
  have hversions : Versions u.server := by
    have hrun := server_run (h.trans h')
    have hboth := hrun.invariant_of
      (I := fun s => PublicationOrder.Settled s ∧ Versions s) (C := Increasing)
      (fun _ _ _ hst hc hn => ⟨PublicationOrder.settled_step hst.1 (ProxyServer.step_of_next hn),
        PublicationOrder.versions_step hst.1 hc hst.2 (ProxyServer.step_of_next hn)⟩)
      ⟨hs.settled, hs.versions⟩ (onServer_iff.mp hinc)
    exact hboth.2
  refine Or.inr ⟨q, ⟨hq, hloaded⟩, hnew, hfresh, ?_, ?_⟩
  · intro hquiet hwrite
    have hle := hfresh hquiet
    rcases (hversions.logged q hq).2 with heq | hlt
    · exact heq
    · rw [file_quiet h' hwrite] at hlt
      omega
  · intro r hr upstream timeoutMs hc
    have hm := mediated_run (h₀.trans (h.trans h')) hr j
    obtain ⟨state, rs, hl, hmatch, _, _, rfl, rfl⟩ :=
      hm.complete.onlyAdmitted upstream timeoutMs hc
    rw [loadedBy, record_serving hr] at hloaded
    obtain rfl := List.singleton_inj.mp (hl.symm.trans hloaded)
    exact ⟨(ProxyState.buildState_ok q.built).1, rs.route, (FirstMatch.route hmatch).2, rfl⟩

end Runs

def sampleWaiting : State ProxyServer.sampleHost :=
  (exec sampleNext sampleWhole sampleBegun).getD sampleWhole

theorem sampleWaiting_started : LoopsStarted sampleWaiting.server where
  main := Or.inl rfl
  initial := ⟨_, rfl, rfl, rfl, List.mem_cons_self, Or.inl rfl⟩
  onDisk := List.mem_cons_self
  reload := rfl
  renewal := Or.inr ⟨rfl, rfl⟩

def sampleReread : State ProxyServer.sampleHost :=
  (exec sampleNext sampleWaiting sampleEdited).getD sampleWaiting

theorem served_fresh_reloaded : ∃ tr tr' u q, Run sampleNext sampleWaiting tr sampleReread ∧
    Run sampleNext sampleReread tr' u ∧ 2 ≤ q.version.mtime ∧
    DecidedFresh (fun _ => sampleArrival) tr tr' sampleReread u 0 q := by
  have h₀ : Run sampleNext sampleWhole (traceOf sampleNext sampleWhole sampleBegun)
    sampleWaiting := run_of_exec rfl
  have h : Run sampleNext sampleWaiting (traceOf sampleNext sampleWaiting sampleEdited)
    sampleReread := run_of_exec rfl
  obtain ⟨u, h', hv⟩ := run_of_view sampleNext sampleReread sampleFound
    (fun s => ((loadedBy s 0).length, PublicationOrder.mtimes s.server)) (1, [2, 1]) rfl
  obtain ⟨hlen, hmtimes⟩ := Prod.mk.inj hv
  have hinc : Obeys Increasing (serverTrace (traceOf sampleNext sampleWaiting sampleEdited ++
      traceOf sampleNext sampleReread sampleFound)) := obeys_of_all rfl
  have horder : InOrder u.server := by
    rw [InOrder, hmtimes]
    unfold SnapshotRegister.Ordered
    decide
  have hno := (PublicationOrder.inOrder_iff sampleWaiting_started
    (server_run (h.trans h')) hinc).mp horder
  rcases served_fresh h₀ sampleWaiting_started h h' (onServer_iff.mpr hinc) (onServer_iff.mpr hno)
    (j := 0) rfl with hnil | ⟨q, hq⟩
  · rw [hnil] at hlen
    cases hlen
  · obtain ⟨p, hp, hm⟩ : ∃ p ∈ sampleReread.server.log, p.version.mtime = 2 :=
      ⟨_, List.mem_cons_self, rfl⟩
    exact ⟨_, _, u, q, h, h', hm ▸ hq.newest p hp, hq⟩

end ServedFreshness
