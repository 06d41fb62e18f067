import PrismProxy.ProxyServer

/-! # What a step of the server can do

The transition functions of `ProxyServer` inverted once: for each task the list of its steps
with their guards, and for the whole server the list of what can happen. Invariants are
proved from these lists. -/
namespace ProxyServer

open ProxyConfig ProxyHealthCheck CertificateCache StatePublication
open AcmeProvision (Call World)

variable {H : Host}

inductive ReloadStep (s : State H) : ReloadPc H → Reply → ReloadEffect H → Prop where
  | fire : ReloadStep s .tick .proceed (.goto .stat)
  | statFailed (e : String) : ReloadStep s .stat (.call (.fs (.failed e))) (.goto .tick)
  | skip (old : s.file.mtime ≤ s.lastMtime) : ReloadStep s .stat (.call (.fs .ok)) (.goto .tick)
  | newer (new : s.lastMtime < s.file.mtime) :
      ReloadStep s .stat (.call (.fs .ok)) (.goto (.read s.file.mtime))
  | readFailed (mtime : ℕ) (reply : FsReply) :
      ReloadStep s (.read mtime) (.call (.fs reply)) (.goto .tick)
  | readOk (mtime : ℕ) (reply : FsReply) (r : ValidReading H) (version : r.version = s.file)
      (readAt : r.readAt = s.log.length) :
      ReloadStep s (.read mtime) (.call (.fs reply)) (.goto (.building mtime r Build.start))
  | build (mtime : ℕ) (r : ValidReading H) (b b' : Build) (a : Answer)
      (step : b.step s.dirs r.config a = some b') :
      ReloadStep s (.building mtime r b) (.call a) (.goto (.building mtime r b'))
  | buildFailed (mtime : ℕ) (r : ValidReading H) (view : ProxyState.BuildView) :
      ReloadStep s (.building mtime r ⟨.ready, view⟩) .proceed (.goto .tick)
  | store (mtime : ℕ) (r : ValidReading H) (view : ProxyState.BuildView) (p : Publication H)
      (reading : p.toReading = r.toReading) (seen : p.view = view) (flag : p.flag = s.nextFlag) :
      ReloadStep s (.building mtime r ⟨.ready, view⟩) .proceed (.store mtime p)

theorem reloadStep_cases {s : State H} {pc : ReloadPc H} {r : Reply} {e : ReloadEffect H}
    (h : reloadStep s pc r = some e) : ReloadStep s pc r e := by
  cases r with
  | acme r => cases h
  | proceed =>
    cases pc with
    | tick => cases h; exact .fire
    | stat => cases h
    | read mtime => cases h
    | building mtime r b =>
      obtain ⟨stage, view⟩ := b
      cases stage <;> try cases h
      simp only [reloadStep] at h
      split at h
      · rename_i p hp
        obtain ⟨hr, hv, hf⟩ := finishBuild_ok hp
        cases h; exact .store mtime r view p hr hv hf
      · cases h; exact .buildFailed mtime r view
  | call a =>
    cases pc with
    | tick => cases a <;> cases h
    | stat =>
      cases a with
      | load f => cases h
      | fs reply =>
        cases reply with
        | ok =>
          simp only [reloadStep, Option.some.injEq] at h
          by_cases hm : s.file.mtime ≤ s.lastMtime
          · rw [if_pos hm] at h; subst h; exact .skip hm
          · rw [if_neg hm] at h; subst h; exact .newer (by omega)
        | failed e => cases h; exact .statFailed e
        | torn n e => cases h
    | read mtime =>
      cases a with
      | load f => cases h
      | fs reply =>
        obtain ⟨res, hres, he⟩ := Option.map_eq_some_iff.mp h
        cases res with
        | error e => cases he; exact .readFailed mtime reply
        | ok r =>
          cases he
          have hr := readValid_ok hres
          exact .readOk mtime reply r hr.1 hr.2
    | building mtime r b =>
      cases a <;>
      · obtain ⟨b', hb, he⟩ := Option.map_eq_some_iff.mp h
        cases he
        exact .build mtime r b b' _ hb

inductive RenewalStep (s : State H) : RenewalPc H → Reply → RenewalEffect H → Prop where
  | fire : RenewalStep s .tick .proceed (.goto .readConfig)
  | readFailed (reply : FsReply) : RenewalStep s .readConfig (.call (.fs reply)) (.goto .tick)
  | readOk (reply : FsReply) (r : RenewalReading H) (version : r.version = s.file)
      (readAt : r.readAt = s.log.length) :
      RenewalStep s .readConfig (.call (.fs reply)) (.goto (.checkCert r))
  | certMissing (r : RenewalReading H) (reply : FsReply)
      (missing : fileExists (s.dirs r.tlsConfig.cacheDir) .cert reply = some false) :
      RenewalStep s (.checkCert r) (.call (.fs reply)) (.goto (startProvision s.challengeStore r))
  | certFound (r : RenewalReading H) (reply : FsReply)
      (found : fileExists (s.dirs r.tlsConfig.cacheDir) .cert reply = some true) :
      RenewalStep s (.checkCert r) (.call (.fs reply)) (.goto (.checkIssuedAt r))
  | due (r : RenewalReading H) (reply : FsReply) (res : Except String String)
      (read : readFile (s.dirs r.tlsConfig.cacheDir) .issuedAt reply = some res)
      (due : certNeedsRenewal true res.toOption s.wall = true) :
      RenewalStep s (.checkIssuedAt r) (.call (.fs reply))
        (.goto (startProvision s.challengeStore r))
  | notDue (r : RenewalReading H) (reply : FsReply) (res : Except String String)
      (read : readFile (s.dirs r.tlsConfig.cacheDir) .issuedAt reply = some res)
      (due : certNeedsRenewal true res.toOption s.wall = false) :
      RenewalStep s (.checkIssuedAt r) (.call (.fs reply)) (.goto .tick)
  | provision (r : RenewalReading H) (call : Call) (pc pc' : AcmeProvision.Pc) (w : World)
      (reply : AcmeProvision.Reply)
      (step : AcmeProvision.step call (s.world r.tlsConfig.cacheDir) pc reply = some (w, pc')) :
      RenewalStep s (.provisioning r call pc) (.acme reply)
        (.provision r.tlsConfig.cacheDir w (afterRenewalProvision r call pc'))
  | build (r : RenewalReading H) (b b' : Build) (a : Answer)
      (step : b.step s.dirs r.config a = some b') :
      RenewalStep s (.building r b) (.call a) (.goto (.building r b'))
  | buildFailed (r : RenewalReading H) (view : ProxyState.BuildView) :
      RenewalStep s (.building r ⟨.ready, view⟩) .proceed (.goto .tick)
  | store (r : RenewalReading H) (view : ProxyState.BuildView) (p : Publication H)
      (reading : p.toReading = r.toReading) (seen : p.view = view) (flag : p.flag = s.nextFlag) :
      RenewalStep s (.building r ⟨.ready, view⟩) .proceed (.store p)

theorem renewalStep_cases {s : State H} {pc : RenewalPc H} {r : Reply} {e : RenewalEffect H}
    (h : renewalStep s pc r = some e) : RenewalStep s pc r e := by
  cases r with
  | proceed =>
    cases pc with
    | tick => cases h; exact .fire
    | building r b =>
      obtain ⟨stage, view⟩ := b
      cases stage <;> try cases h
      simp only [renewalStep] at h
      split at h
      · rename_i p hp
        obtain ⟨hr, hv, hf⟩ := finishBuild_ok hp
        cases h; exact .store r view p hr hv hf
      · cases h; exact .buildFailed r view
    | _ => cases h
  | acme reply =>
    cases pc with
    | provisioning r call pc =>
      obtain ⟨⟨w, pc'⟩, hs, he⟩ := Option.map_eq_some_iff.mp h
      subst he
      exact .provision r call pc pc' w reply hs
    | _ => cases h
  | call a =>
    cases pc with
    | building r b =>
      cases a <;>
      · obtain ⟨b', hb, he⟩ := Option.map_eq_some_iff.mp h
        cases he
        exact .build r b b' _ hb
    | readConfig =>
      cases a with
      | load f => cases h
      | fs reply =>
        obtain ⟨res, hres, he⟩ := Option.map_eq_some_iff.mp h
        subst he
        cases res with
        | error e => exact .readFailed reply
        | ok reading =>
          have hr := readConfig_ok hres
          simp only [afterRenewalRead]
          split
          · exact .readFailed reply
          · rename_i tlsConfig ht
            exact .readOk reply ⟨reading, tlsConfig, ht⟩ hr.1 hr.2
    | checkCert r =>
      cases a with
      | load f => cases h
      | fs reply =>
        obtain ⟨found, hfound, he⟩ := Option.map_eq_some_iff.mp h
        subst he
        cases found with
        | true => exact .certFound r reply hfound
        | false => exact .certMissing r reply hfound
    | checkIssuedAt r =>
      cases a with
      | load f => cases h
      | fs reply =>
        obtain ⟨res, hres, he⟩ := Option.map_eq_some_iff.mp h
        subst he
        cases hd : certNeedsRenewal true res.toOption s.wall with
        | true => exact .due r reply res hres hd
        | false => exact .notDue r reply res hres hd
    | tick => cases a <;> cases h
    | provisioning r call pc => cases a <;> cases h

inductive MainStep (s : State H) : MainPc H → Reply → MainEffect H → Prop where
  | leave (pc : MainPc H) (r : Reply) (e : ProxyError) :
      MainStep s pc r (.goto (.returned (.error e)))
  | readOk (reply : FsReply) (r : ValidReading H) (version : r.version = s.file)
      (readAt : r.readAt = s.log.length) :
      MainStep s .readConfig (.call (.fs reply)) (.goto (.building r Build.start))
  | build (r : ValidReading H) (b b' : Build) (a : Answer)
      (step : b.step s.dirs r.config a = some b') :
      MainStep s (.building r b) (.call a) (.goto (.building r b'))
  | incomplete (r : ValidReading H) (view : ProxyState.BuildView) (boot : Boot) :
      MainStep s (.building r ⟨.ready, view⟩) .proceed (.goto (.readAgain boot))
  | complete (r : ValidReading H) (view : ProxyState.BuildView) (p : Publication H)
      (reading : p.toReading = r.toReading) (seen : p.view = view) (flag : p.flag = s.nextFlag)
      (tls : p.config.tls.isSome → p.state.tls.isSome) :
      MainStep s (.building r ⟨.ready, view⟩) .proceed
        (.publish p ⟨p.config.tls.isSome, p.config.server.httpChallengeListen⟩)
  | panic (boot : Boot) (reply : FsReply) :
      MainStep s (.readAgain boot) (.call (.fs reply)) (.goto .panicked)
  | readAgainOk (boot : Boot) (reply : FsReply) (call : Call) :
      MainStep s (.readAgain boot) (.call (.fs reply))
        (.goto (.provisioning boot call .createDir))
  | provision (boot : Boot) (call : Call) (pc pc' : AcmeProvision.Pc) (w : World)
      (reply : AcmeProvision.Reply)
      (step : AcmeProvision.step call (s.world call.tlsConfig.cacheDir) pc reply = some (w, pc')) :
      MainStep s (.provisioning boot call pc) (.acme reply)
        (.provision call.tlsConfig.cacheDir w (afterMainProvision boot call pc'))
  | rereadOk (boot : Boot) (reply : FsReply) (r : ValidReading H) (version : r.version = s.file)
      (readAt : r.readAt = s.log.length) :
      MainStep s (.reread boot) (.call (.fs reply)) (.goto (.rebuilding boot r Build.start))
  | rebuild (boot : Boot) (r : ValidReading H) (b b' : Build) (a : Answer)
      (step : b.step s.dirs r.config a = some b') :
      MainStep s (.rebuilding boot r b) (.call a) (.goto (.rebuilding boot r b'))
  | recomplete (boot : Boot) (r : ValidReading H) (view : ProxyState.BuildView)
      (p : Publication H) (reading : p.toReading = r.toReading) (seen : p.view = view)
      (flag : p.flag = s.nextFlag) :
      MainStep s (.rebuilding boot r ⟨.ready, view⟩) .proceed (.publish p boot)
  | watch (boot : Boot) (reply : FsReply) (mtime : ℕ) (read : mtime = s.file.mtime ∨ mtime = 0) :
      MainStep s (.stat boot) (.call (.fs reply)) (.watch mtime boot)
  | renew (boot : Boot) (reply : FsReply) (redirect : Option (String × ℕ)) :
      MainStep s (.readPort boot) (.call (.fs reply)) (.renew redirect)

theorem mainStep_cases {s : State H} {pc : MainPc H} {r : Reply} {e : MainEffect H}
    (h : mainStep s pc r = some e) : MainStep s pc r e := by
  cases r with
  | proceed =>
    cases pc with
    | building r b =>
      obtain ⟨stage, view⟩ := b
      cases stage <;> cases h
      cases hb : finishBuild r.toReading view s.nextFlag with
      | error m => exact .leave _ _ m
      | ok p =>
        obtain ⟨hr, hv, hf⟩ := finishBuild_ok hb
        simp only [leaveOr, afterBuild]
        split
        · exact .incomplete r view _
        · rename_i hno
          exact .complete r view p hr hv hf (by
            intro ht
            simpa [ht, Option.isSome_iff_ne_none] using hno)
    | rebuilding boot r b =>
      obtain ⟨stage, view⟩ := b
      cases stage <;> cases h
      cases hb : finishBuild r.toReading view s.nextFlag with
      | error m => exact .leave _ _ m
      | ok p =>
        obtain ⟨hr, hv, hf⟩ := finishBuild_ok hb
        exact .recomplete boot r view p hr hv hf
    | _ => cases h
  | acme reply =>
    cases pc with
    | provisioning boot call pc =>
      obtain ⟨⟨w, pc'⟩, hs, he⟩ := Option.map_eq_some_iff.mp h
      subst he
      exact .provision boot call pc pc' w reply hs
    | _ => cases h
  | call a =>
    cases pc with
    | readConfig =>
      cases a with
      | load f => cases h
      | fs reply =>
        obtain ⟨res, hres, he⟩ := Option.map_eq_some_iff.mp h
        subst he
        cases res with
        | error m => exact .leave _ _ m
        | ok r => exact .readOk reply r (readValid_ok hres).1 (readValid_ok hres).2
    | building r b =>
      cases a <;>
      · obtain ⟨b', hb, he⟩ := Option.map_eq_some_iff.mp h
        subst he
        exact .build r b b' _ hb
    | readAgain boot =>
      cases a with
      | load f => cases h
      | fs reply =>
        obtain ⟨res, hres, he⟩ := Option.map_eq_some_iff.mp h
        subst he
        cases res with
        | error m => exact .leave _ _ m
        | ok r =>
          simp only [leaveOr, afterReadAgain]
          split
          · exact .panic boot reply
          · split
            · exact .leave _ _ _
            · exact .readAgainOk boot reply _
    | reread boot =>
      cases a with
      | load f => cases h
      | fs reply =>
        obtain ⟨res, hres, he⟩ := Option.map_eq_some_iff.mp h
        subst he
        cases res with
        | error m => exact .leave _ _ m
        | ok r => exact .rereadOk boot reply r (readValid_ok hres).1 (readValid_ok hres).2
    | rebuilding boot r b =>
      cases a <;>
      · obtain ⟨b', hb, he⟩ := Option.map_eq_some_iff.mp h
        subst he
        exact .rebuild boot r b b' _ hb
    | stat boot =>
      cases a with
      | load f => cases h
      | fs reply =>
        cases reply with
        | ok => cases h; exact .watch boot .ok _ (Or.inl rfl)
        | failed m => cases h; exact .watch boot (.failed m) _ (Or.inr rfl)
        | torn n m => cases h
    | readPort boot =>
      cases a with
      | load f => cases h
      | fs reply =>
        obtain ⟨res, hres, he⟩ := Option.map_eq_some_iff.mp h
        subst he
        exact .renew boot reply _
    | _ => cases a <;> cases h

inductive Step (s : State H) : Event → State H → Prop where
  | writeConfig (v : FileVersion) :
      Step s (.writeConfig v) { s with file := v, history := v :: s.history }
  | editCache (dir : String) (files : CacheDir) :
      Step s (.editCache dir files) { s with dirs := Function.update s.dirs dir files }
  | clock (instant wall : ℕ) (forward : s.instant ≤ instant) :
      Step s (.clock instant wall) { s with instant := instant, wall := wall }
  | ping (i : ℕ) (ok : Bool) (l : HealthLoop) (live : s.loops[i]? = some l) :
      Step s (.ping i ok)
        { s with
          loops := s.loops.set i (l.ping (s.flags l.healthy) ok).1
          flags := Function.update s.flags l.healthy (l.ping (s.flags l.healthy) ok).2 }
  | main (r : Reply) (e : MainEffect H) (effect : mainStep s s.main r = some e) :
      Step s (.main r) (s.mainEffect e)
  | reload (r : Reply) (pc : ReloadPc H) (e : ReloadEffect H) (at_pc : s.reload = some pc)
      (effect : reloadStep s pc r = some e) : Step s (.reload r) (s.reloadEffect e)
  | renewal (r : Reply) (pc : RenewalPc H) (e : RenewalEffect H) (at_pc : s.renewal = some pc)
      (effect : renewalStep s pc r = some e) : Step s (.renewal r) (s.renewalEffect e)
  | accept (open_ : s.accepting = true) : Step s .accept { s with pending := s.pending + 1 }
  | acceptError (e : String) (open_ : s.accepting = true) :
      Step s (.acceptError e) { s with main := .returned (.error (.io e)) }
  | shutdown (open_ : s.accepting = true) :
      Step s .shutdown { s with main := .returned (.ok ()) }
  | dispatch (n : ℕ) (p : Publication H) (head : s.published = some p) :
      Step s .dispatch
        { s with pending := n, handed := ⟨p, p.state.tls.isSome⟩ :: s.handed }

theorem step_of_next {s t : State H} {e : Event} (h : next s e = some t) : Step s e t := by
  cases e with
  | writeConfig v => obtain rfl := Option.some.inj h; exact .writeConfig v
  | editCache dir files => obtain rfl := Option.some.inj h; exact .editCache dir files
  | clock instant wall =>
    simp only [next, Option.ite_none_right_eq_some, Option.some.injEq] at h
    obtain ⟨hi, rfl⟩ := h
    exact .clock instant wall hi
  | ping i ok =>
    obtain ⟨l, hl, rfl⟩ := Option.map_eq_some_iff.mp h
    exact .ping i ok l hl
  | main r =>
    obtain ⟨e, he, rfl⟩ := Option.map_eq_some_iff.mp h
    exact .main r e he
  | reload r =>
    obtain ⟨pc, hpc, hr⟩ := Option.bind_eq_some_iff.mp h
    obtain ⟨e, he, rfl⟩ := Option.map_eq_some_iff.mp hr
    exact .reload r pc e hpc he
  | renewal r =>
    obtain ⟨pc, hpc, hr⟩ := Option.bind_eq_some_iff.mp h
    obtain ⟨e, he, rfl⟩ := Option.map_eq_some_iff.mp hr
    exact .renewal r pc e hpc he
  | accept =>
    simp only [next, Option.ite_none_right_eq_some, Option.some.injEq] at h
    obtain ⟨ha, rfl⟩ := h
    exact .accept ha
  | acceptError m =>
    simp only [next, Option.ite_none_right_eq_some, Option.some.injEq] at h
    obtain ⟨ha, rfl⟩ := h
    exact .acceptError m ha
  | shutdown =>
    simp only [next, Option.ite_none_right_eq_some, Option.some.injEq] at h
    obtain ⟨ha, rfl⟩ := h
    exact .shutdown ha
  | dispatch =>
    simp only [next, State.dispatch] at h
    split at h
    · rename_i n p rest hn hl
      obtain rfl := Option.some.inj h
      exact .dispatch n p (by simp [State.published, hl])
    · cases h

theorem step_main {s t : State H} {e : Event} (h : Step s e t) (he : ∀ r, e ≠ .main r) :
    t.main = s.main ∨ (s.accepting = true ∧ ∃ result, t.main = .returned result) := by
  cases h with
  | main r eff _ => exact absurd rfl (he r)
  | reload r pc eff hpc _ => left; cases eff <;> rfl
  | renewal r pc eff hpc _ => left; cases eff <;> rfl
  | acceptError m ha => exact Or.inr ⟨ha, _, rfl⟩
  | shutdown ha => exact Or.inr ⟨ha, _, rfl⟩
  | _ => exact Or.inl rfl

inductive Writer where
  | main
  | reload
  | renewal
  deriving DecidableEq, Repr

/-- The publication a step makes, and the task that makes it. -/
def storing (s : State H) : Event → Option (Writer × Publication H)
  | .main r =>
    match mainStep s s.main r with
    | some (.publish p _) => some (.main, p)
    | _ => none
  | .reload r =>
    match s.reload.bind fun pc => reloadStep s pc r with
    | some (.store _ p) => some (.reload, p)
    | _ => none
  | .renewal r =>
    match s.renewal.bind fun pc => renewalStep s pc r with
    | some (.store p) => some (.renewal, p)
    | _ => none
  | _ => none

theorem step_log {s t : State H} {e : Event} (h : Step s e t) :
    t.log = ((storing s e).map Prod.snd).toList ++ s.log := by
  cases h with
  | main r eff he =>
    cases eff <;> simp [storing, he, State.mainEffect, State.provisioned, State.store]
  | reload r pc eff hpc he => cases eff <;> simp [storing, hpc, he, State.reloadEffect, State.store]
  | renewal r pc eff hpc he =>
    cases eff <;> simp [storing, hpc, he, State.renewalEffect, State.provisioned, State.store]
  | _ => rfl

theorem storing_main {s : State H} {e : Event} {p : Publication H}
    (h : storing s e = some (.main, p)) :
    (∃ r view, s.main = .building r ⟨.ready, view⟩ ∧ p.toReading = r.toReading ∧
      (p.config.tls.isSome → p.state.tls.isSome)) ∨
    ∃ boot r view, s.main = .rebuilding boot r ⟨.ready, view⟩ ∧ p.toReading = r.toReading := by
  cases e with
  | main r =>
    simp only [storing] at h
    split at h
    · rename_i q boot he
      obtain rfl : q = p := (Prod.mk.inj (Option.some.inj h)).2
      generalize hpc : s.main = pc at he
      cases mainStep_cases he with
      | complete r view _ hr _ _ ht => exact Or.inl ⟨r, view, rfl, hr, ht⟩
      | recomplete _ r view _ hr _ _ => exact Or.inr ⟨boot, r, view, rfl, hr⟩
    · cases h
  | reload r => simp only [storing] at h; split at h <;> cases h
  | renewal r => simp only [storing] at h; split at h <;> cases h
  | _ => cases h

theorem storing_reload {s : State H} {e : Event} {p : Publication H}
    (h : storing s e = some (.reload, p)) :
    ∃ r mtime vr view, e = .reload r ∧ s.reload = some (.building mtime vr ⟨.ready, view⟩) ∧
      reloadStep s (.building mtime vr ⟨.ready, view⟩) r = some (.store mtime p) ∧
      p.toReading = vr.toReading ∧ p.view = view ∧ p.flag = s.nextFlag := by
  cases e with
  | reload r =>
    simp only [storing] at h
    split at h
    · rename_i m q he
      obtain rfl : q = p := (Prod.mk.inj (Option.some.inj h)).2
      obtain ⟨pc, hpc, hstep⟩ := Option.bind_eq_some_iff.mp he
      have hcase := reloadStep_cases hstep
      cases hcase with
      | store _ vr view _ hr hv hf => exact ⟨_, m, vr, view, rfl, hpc, hstep, hr, hv, hf⟩
    · cases h
  | main r => simp only [storing] at h; split at h <;> cases h
  | renewal r => simp only [storing] at h; split at h <;> cases h
  | _ => cases h

theorem storing_renewal {s : State H} {e : Event} {p : Publication H}
    (h : storing s e = some (.renewal, p)) :
    ∃ r rr view, e = .renewal r ∧ s.renewal = some (.building rr ⟨.ready, view⟩) ∧
      renewalStep s (.building rr ⟨.ready, view⟩) r = some (.store p) ∧
      p.toReading = rr.toReading ∧ p.view = view ∧ p.flag = s.nextFlag := by
  cases e with
  | renewal r =>
    simp only [storing] at h
    split at h
    · rename_i q he
      obtain rfl : q = p := (Prod.mk.inj (Option.some.inj h)).2
      obtain ⟨pc, hpc, hstep⟩ := Option.bind_eq_some_iff.mp he
      have hcase := renewalStep_cases hstep
      cases hcase with
      | store rr view _ hr hv hf => exact ⟨_, rr, view, rfl, hpc, hstep, hr, hv, hf⟩
    · cases h
  | main r => simp only [storing] at h; split at h <;> cases h
  | reload r => simp only [storing] at h; split at h <;> cases h
  | _ => cases h

theorem storing_valid {s : State H} {e : Event} {w : Writer} {p : Publication H}
    (h : storing s e = some (w, p)) (hw : w ≠ .renewal) : validate p.config = .ok () := by
  have of_valid : ∀ r : ValidReading H, p.toReading = r.toReading → validate p.config = .ok () := by
    intro r hr
    rw [hr]
    exact r.valid
  cases w with
  | main =>
    rcases storing_main h with ⟨r, _, _, hr, _⟩ | ⟨_, r, _, _, hr⟩
    · exact of_valid r hr
    · exact of_valid r hr
  | reload =>
    obtain ⟨_, _, r, _, _, _, _, hr, _⟩ := storing_reload h
    exact of_valid r hr
  | renewal => exact absurd rfl hw

def MainPc.starting : MainPc H → Bool
  | .readConfig | .building _ _ | .readAgain _ | .provisioning _ _ _ | .reread _
  | .rebuilding _ _ _ => true
  | _ => false

def MainPc.opened : MainPc H → Bool
  | .stat _ | .readPort _ | .serving => true
  | _ => false

/-- Nothing runs before the initial state is published, and it is published once. -/
structure Opening (s : State H) : Prop where
  starting : s.main.starting = true → s.log = []
  opened : s.main.opened = true → s.log ≠ []
  tasks : s.log = [] → s.reload = none ∧ s.renewal = none ∧ s.loops = []

theorem boot_opening (H : Host) (file : FileVersion) (dirs : String → CacheDir)
    (instant wall : ℕ) : Opening (boot H file dirs instant wall) :=
  ⟨fun _ => rfl, nofun, fun _ => ⟨rfl, rfl, rfl⟩⟩

theorem Opening.frame {s t : State H} (h : Opening s) (hm : t.main = s.main)
    (hl : t.log = s.log) (hr : t.reload = none ↔ s.reload = none)
    (hn : t.renewal = none ↔ s.renewal = none) (hp : t.loops = [] ↔ s.loops = []) :
    Opening t := by
  refine ⟨?_, ?_, ?_⟩
  · intro hs
    rw [hl]
    exact h.starting (hm ▸ hs)
  · intro ho
    rw [hl]
    exact h.opened (hm ▸ ho)
  · intro hnil
    rw [hl] at hnil
    obtain ⟨h1, h2, h3⟩ := h.tasks hnil
    exact ⟨hr.mpr h1, hn.mpr h2, hp.mpr h3⟩

theorem Opening.stored {t : State H} (h : t.log ≠ []) (hm : t.main.starting = false) :
    Opening t := by
  refine ⟨?_, fun _ => h, fun hnil => absurd hnil h⟩
  intro hs
  rw [hm] at hs
  cases hs

theorem Opening.leave {s t : State H} (h : Opening s) (hm : t.main.starting = false)
    (hm' : t.main.opened = false) (hl : t.log = s.log) (hr : t.reload = s.reload)
    (hn : t.renewal = s.renewal) (hp : t.loops = s.loops) : Opening t := by
  refine ⟨?_, ?_, ?_⟩
  · intro hs
    rw [hm] at hs
    cases hs
  · intro ho
    rw [hm'] at ho
    cases ho
  · rw [hl, hr, hn, hp]
    exact h.tasks

theorem Opening.of_reload {s : State H} {pc : ReloadPc H} (h : Opening s)
    (hpc : s.reload = some pc) : s.log ≠ [] := by
  intro hnil
  rw [(h.tasks hnil).1] at hpc
  cases hpc

theorem Opening.of_renewal {s : State H} {pc : RenewalPc H} (h : Opening s)
    (hpc : s.renewal = some pc) : s.log ≠ [] := by
  intro hnil
  rw [(h.tasks hnil).2.1] at hpc
  cases hpc

theorem afterMainProvision_cases (boot : Boot) (call : Call) (pc : AcmeProvision.Pc) :
    afterMainProvision (H := H) boot call pc = .reread boot ∨
    (∃ e, afterMainProvision (H := H) boot call pc = .returned (.error e)) ∨
    afterMainProvision (H := H) boot call pc = .provisioning boot call pc := by
  cases pc with
  | done result => cases result with
    | ok issued => exact Or.inl rfl
    | error e => exact Or.inr (Or.inl ⟨e, rfl⟩)
  | _ => exact Or.inr (Or.inr rfl)

theorem afterRenewalProvision_cases (r : RenewalReading H) (call : Call)
    (pc : AcmeProvision.Pc) :
    afterRenewalProvision r call pc = .provisioning r call pc ∨
    (∃ issued, pc = .done (.ok issued) ∧
      afterRenewalProvision r call pc = .building r Build.start) ∨
    ∃ e, pc = .done (.error e) ∧ afterRenewalProvision r call pc = .tick := by
  cases pc with
  | done result => cases result with
    | ok issued => exact Or.inr (Or.inl ⟨issued, rfl, rfl⟩)
    | error e => exact Or.inr (Or.inr ⟨e, rfl, rfl⟩)
  | _ => exact Or.inl rfl

theorem afterMainProvision_place (boot : Boot) (call : Call) (pc : AcmeProvision.Pc) :
    (afterMainProvision (H := H) boot call pc).opened = false := by
  rcases afterMainProvision_cases (H := H) boot call pc with h | ⟨e, h⟩ | h <;> rw [h] <;> rfl

theorem opening_step {s t : State H} {e : Event} (hs : Opening s) (h : Step s e t) :
    Opening t := by
  cases h with
  | main r eff he =>
    generalize hpc : s.main = pc at he
    have running : ∀ pc', pc.starting = true → pc'.opened = false →
        ∀ t : State H, t.main = pc' → t.log = s.log → t.reload = s.reload →
          t.renewal = s.renewal → t.loops = s.loops → Opening t := by
      intro pc' hst ho t hm hl hr hn hp
      have hnil : s.log = [] := hs.starting (by rw [hpc]; exact hst)
      refine ⟨fun _ => hl.trans hnil, fun hop => ?_, ?_⟩
      · rw [hm, ho] at hop
        cases hop
      · rw [hl, hr, hn, hp]
        exact hs.tasks
    cases mainStep_cases he with
    | leave _ _ m => exact hs.leave rfl rfl rfl rfl rfl rfl
    | readOk _ vr _ _ => exact running _ rfl rfl _ rfl rfl rfl rfl rfl
    | build vr b b' a _ => exact running _ rfl rfl _ rfl rfl rfl rfl rfl
    | incomplete vr view boot => exact running _ rfl rfl _ rfl rfl rfl rfl rfl
    | complete vr view p _ _ _ _ =>
      exact Opening.stored (by simp [State.mainEffect, State.store]) rfl
    | panic boot reply => exact hs.leave rfl rfl rfl rfl rfl rfl
    | readAgainOk boot reply call => exact running _ rfl rfl _ rfl rfl rfl rfl rfl
    | provision boot call pc pc' w reply _ =>
      exact running _ rfl (afterMainProvision_place boot call pc') _ rfl rfl rfl rfl rfl
    | rereadOk boot reply vr _ _ => exact running _ rfl rfl _ rfl rfl rfl rfl rfl
    | rebuild boot vr b b' a _ => exact running _ rfl rfl _ rfl rfl rfl rfl rfl
    | recomplete boot vr view p _ _ _ =>
      exact Opening.stored (by simp [State.mainEffect, State.store]) rfl
    | watch boot reply mtime _ =>
      have hne : s.log ≠ [] := hs.opened (by rw [hpc]; rfl)
      refine Opening.stored hne ?_
      simp only [State.mainEffect]
      split <;> rfl
    | renew boot reply redirect =>
      have hne : s.log ≠ [] := hs.opened (by rw [hpc]; rfl)
      exact Opening.stored hne rfl
  | reload r pc eff hpc he =>
    cases eff with
    | goto pc' => exact hs.frame rfl rfl (by simp [State.reloadEffect, hpc]) Iff.rfl Iff.rfl
    | store mtime p =>
      have hne := hs.of_reload hpc
      refine ⟨fun hst => ?_, fun _ => by simp [State.reloadEffect, State.store],
        fun hnil => by simp [State.reloadEffect, State.store] at hnil⟩
      exact absurd (hs.starting hst) hne
  | renewal r pc eff hpc he =>
    cases eff with
    | goto pc' => exact hs.frame rfl rfl Iff.rfl (by simp [State.renewalEffect, hpc]) Iff.rfl
    | provision dir w pc' =>
      exact hs.frame rfl rfl Iff.rfl (by simp [State.renewalEffect, hpc]) Iff.rfl
    | store p =>
      have hne := hs.of_renewal hpc
      refine ⟨fun hst => ?_, fun _ => by simp [State.renewalEffect, State.store],
        fun hnil => by simp [State.renewalEffect, State.store] at hnil⟩
      exact absurd (hs.starting hst) hne
  | ping i ok l hl => exact hs.frame rfl rfl Iff.rfl Iff.rfl (by simp)
  | acceptError m ha => exact hs.leave rfl rfl rfl rfl rfl rfl
  | shutdown ha => exact hs.leave rfl rfl rfl rfl rfl rfl
  | _ => exact hs.frame rfl rfl Iff.rfl Iff.rfl Iff.rfl

def MainPc.watching : MainPc H → Bool
  | .readPort _ | .serving | .returned _ => true
  | _ => false

def MainPc.over : MainPc H → Bool
  | .serving | .returned _ => true
  | _ => false

structure Spawning (s : State H) : Prop where
  reload : s.main.watching = false → s.reload = none
  renewal : s.main.over = false → s.renewal = none
  store : s.renewal ≠ none → s.challengeStore = true

theorem boot_spawning (H : Host) (file : FileVersion) (dirs : String → CacheDir)
    (instant wall : ℕ) : Spawning (boot H file dirs instant wall) :=
  ⟨fun _ => rfl, fun _ => rfl, nofun⟩

theorem Spawning.goto {s t : State H} (h : Spawning s)
    (hw : t.main.watching = false → s.main.watching = false)
    (ho : t.main.over = false → s.main.over = false) (hr : t.reload = none ↔ s.reload = none)
    (hn : t.renewal = none ↔ s.renewal = none) (hc : t.challengeStore = s.challengeStore) :
    Spawning t where
  reload hm := hr.mpr (h.reload (hw hm))
  renewal hm := hn.mpr (h.renewal (ho hm))
  store hne := by
    rw [hc]
    exact h.store fun hnone => hne (hn.mpr hnone)

theorem spawning_step {s t : State H} {e : Event} (hs : Spawning s) (h : Step s e t) :
    Spawning t := by
  have running : ∀ {pc : MainPc H} (t : State H), s.main = pc → pc.watching = false →
      pc.over = false → t.reload = s.reload → t.renewal = s.renewal →
        t.challengeStore = s.challengeStore → Spawning t := by
    rintro pc t rfl hw ho hr hn hc
    exact hs.goto (fun _ => hw) (fun _ => ho) (by rw [hr]) (by rw [hn]) hc
  cases h with
  | main r eff he =>
    generalize hpc : s.main = pc at he
    cases mainStep_cases he with
    | leave _ _ m => exact hs.goto nofun nofun Iff.rfl Iff.rfl rfl
    | watch boot reply mtime _ =>
      have hnone : s.renewal = none := hs.renewal (by rw [hpc]; rfl)
      refine ⟨?_, fun _ => hnone, hs.store⟩
      intro hm
      simp only [State.mainEffect] at hm
      split at hm <;> cases hm
    | renew boot reply redirect => exact ⟨nofun, nofun, fun _ => rfl⟩
    | _ => exact running _ hpc rfl rfl rfl rfl rfl
  | reload r pc eff hpc he =>
    cases eff <;>
      exact hs.goto id id (by simp [State.reloadEffect, hpc]) Iff.rfl rfl
  | renewal r pc eff hpc he =>
    cases eff <;>
      exact hs.goto id id Iff.rfl (by simp [State.renewalEffect, hpc]) rfl
  | acceptError m ha => exact hs.goto nofun nofun Iff.rfl Iff.rfl rfl
  | shutdown ha => exact hs.goto nofun nofun Iff.rfl Iff.rfl rfl
  | _ => exact hs.goto id id Iff.rfl Iff.rfl rfl

end ProxyServer
