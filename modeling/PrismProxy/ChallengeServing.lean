import PrismProxy.ChallengeResponders
import PrismProxy.ProxyServerSteps

/-! # Challenges are served while an order waits for them

The loop over the authorizations fills the map that one responder or the other answers from
before the first challenge is notified; the store is emptied before its call returns. -/
namespace ChallengeServing

open TransitionRuns ChallengeResponders ProxyServer
open AcmeProvision hiding Reply
open HttpMessage (Request Response textResponse)
open StatePublication (Host)

variable {H : Host}

def http01 (auth : Authorization) : Option Challenge :=
  auth.challenges.find? fun c => c.type == .http01

def chosen (order : List Authorization) : List Challenge := order.filterMap http01

def Complete (order : List Authorization) : Prop := ∀ auth ∈ order, (http01 auth).isSome

def DistinctTokens (order : List Authorization) : Prop := ((chosen order).map Challenge.token).Nodup

def insertAll (cs : List Challenge) (m : ChallengeMap) : ChallengeMap :=
  cs.foldl (fun m c => Function.update m c.token (some c.keyAuthorization)) m

theorem insertAll_other {cs : List Challenge} {token : String}
    (h : ∀ c ∈ cs, c.token ≠ token) (m : ChallengeMap) : insertAll cs m token = m token := by
  induction cs generalizing m with
  | nil => rfl
  | cons c cs ih =>
    rw [insertAll, List.foldl_cons]
    refine (ih (fun d hd => h d (List.mem_cons_of_mem _ hd)) _).trans ?_
    exact Function.update_of_ne (h c List.mem_cons_self).symm ..

theorem insertAll_mem {cs : List Challenge} (h : (cs.map Challenge.token).Nodup)
    {c : Challenge} (hc : c ∈ cs) (m : ChallengeMap) :
    insertAll cs m c.token = some c.keyAuthorization := by
  induction cs generalizing m with
  | nil => cases hc
  | cons d cs ih =>
    obtain ⟨hd, hcs⟩ := List.nodup_cons.mp h
    rcases List.mem_cons.mp hc with rfl | hc
    · rw [insertAll, List.foldl_cons]
      refine (insertAll_other (fun e he htoken => ?_) _).trans (Function.update_self ..)
      exact hd (List.mem_map.mpr ⟨e, he, htoken⟩)
    · exact ih hcs hc _

theorem insertAll_chosen {order : List Authorization} (h : DistinctTokens order)
    {c : Challenge} (hc : c ∈ chosen order) :
    insertAll (chosen order) noChallenges c.token = some c.keyAuthorization :=
  insertAll_mem h hc noChallenges

def gathered (call : Call) (w : World) (challengesMap : ChallengeMap) : ChallengeMap :=
  match call.variant with
  | .provision _ => challengesMap
  | .provisionWithStore => w.challenges

def visible (call : Call) (w : World) : Option ChallengeMap :=
  match call.variant with
  | .provision _ => w.responder
  | .provisionWithStore => some w.challenges

def Cleared (call : Call) (w : World) : Prop :=
  call.variant = .provisionWithStore → w.challenges = noChallenges

/-- All challenges of the order are answered for; those at `urls` are still to be notified. -/
def Ready (call : Call) (order : Option (List Authorization)) (w : World) (urls : List String) :
    Prop :=
  ∃ as, order = some as ∧ Complete as ∧
    visible call w = some (insertAll (chosen as) noChallenges) ∧
    urls <:+ (chosen as).map Challenge.url

def Progress (call : Call) (order : Option (List Authorization)) (w : World) : Pc → Prop
  | .createDir | .checkLock | .createLock | .account _ _ | .newOrder _ | .authorizations
  | .done _ => Cleared call w
  | .collect todo challengesMap urls => ∃ as before, order = some as ∧ as = before ++ todo ∧
      Complete before ∧ gathered call w challengesMap = insertAll (chosen before) noChallenges ∧
      urls = (chosen before).map Challenge.url
  | .bindServer _ challengesMap urls => (∃ listen, call.variant = .provision listen) ∧
      ∃ as, order = some as ∧ Complete as ∧
        challengesMap = insertAll (chosen as) noChallenges ∧
        urls = (chosen as).map Challenge.url
  | .setReady urls => Ready call order w urls
  | .sleepOrder _ _ | .refresh _ => Ready call order w []
  | _ => True

def orderAfter (order : Option (List Authorization)) :
    AcmeProvision.Reply → Option (List Authorization)
  | .authorizations (.ok as) => some as
  | _ => order

theorem Ready.suffix {call : Call} {order : Option (List Authorization)} {w : World}
    {urls rest : List String} (h : Ready call order w urls) (hrest : rest <:+ urls) :
    Ready call order w rest := by
  obtain ⟨as, horder, hall, hvisible, hurls⟩ := h
  exact ⟨as, horder, hall, hvisible, hrest.trans hurls⟩

theorem Progress.frame {call : Call} {order : Option (List Authorization)} {w w' : World}
    {pc : Pc} (h : Progress call order w pc) (hc : w'.challenges = w.challenges)
    (hr : w'.responder = w.responder) : Progress call order w' pc := by
  have hgathered : ∀ m, gathered call w' m = gathered call w m := by
    intro m
    simp only [gathered, hc]
  have hvisible : visible call w' = visible call w := by
    simp only [visible, hc, hr]
  unfold Progress at h ⊢
  simp only [Cleared, Ready, hgathered, hvisible, hc] at h ⊢
  exact h

theorem chosen_append (before : List Authorization) (auth : Authorization) {c : Challenge}
    (h : http01 auth = some c) : chosen (before ++ [auth]) = chosen before ++ [c] := by
  simp [chosen, h]

theorem insertAll_snoc (cs : List Challenge) (c : Challenge) (m : ChallengeMap) :
    insertAll (cs ++ [c]) m =
      Function.update (insertAll cs m) c.token (some c.keyAuthorization) := by
  simp [insertAll]

theorem Complete.snoc {before : List Authorization} {auth : Authorization} {c : Challenge}
    (h : Complete before) (hc : http01 auth = some c) : Complete (before ++ [auth]) := by
  intro a ha
  rcases List.mem_append.mp ha with ha | ha
  · exact h a ha
  · rw [List.mem_singleton.mp ha, hc]
    rfl

theorem progress_finish {call : Call} {order : Option (List Authorization)} {w : World}
    (result : Except ProxyConfig.ProxyError Issued) :
    Progress call order w (finish call result) := by
  unfold finish
  cases hv : call.variant with
  | provision listen =>
    intro hstore
    rw [hv] at hstore
    cases hstore
  | provisionWithStore => trivial

theorem progress_step {call : Call} {order : Option (List Authorization)} {w : World} {pc : Pc}
    {r : AcmeProvision.Reply} {o : World × Pc} (hp : Progress call order w pc)
    (h : step call w pc r = some o) : Progress call (orderAfter order r) o.1 o.2 := by
  cases step_cases h with
  | orderRead as =>
    refine ⟨as, [], rfl, rfl, by simp [Complete], ?_, rfl⟩
    unfold gathered
    cases hv : call.variant with
    | provision listen => rfl
    | provisionWithStore => exact hp hv
  -- one turn of the loop adds the challenge of one more authorization
  | answerOwn listen auth todo challengesMap urls c hv found =>
    obtain ⟨as, before, horder, has, hall, hmap, rfl⟩ := hp
    have hchosen := chosen_append before auth found
    simp only [gathered, hv] at hmap
    refine ⟨as, before ++ [auth], horder, by simp [has], hall.snoc found, ?_, by simp [hchosen]⟩
    simp only [gathered, hv, hchosen, insertAll_snoc, hmap]
  | answerShared auth todo challengesMap urls c hv found =>
    obtain ⟨as, before, horder, has, hall, hmap, rfl⟩ := hp
    have hchosen := chosen_append before auth found
    simp only [gathered, hv] at hmap
    refine ⟨as, before ++ [auth], horder, by simp [has], hall.snoc found, ?_, by simp [hchosen]⟩
    simp only [gathered, hv, hchosen, insertAll_snoc, hmap]
  | collectedOwn listen challengesMap urls hv =>
    obtain ⟨as, before, horder, rfl, hall, hmap, rfl⟩ := hp
    rw [List.append_nil] at horder
    simp only [gathered, hv] at hmap
    exact ⟨⟨listen, hv⟩, before, horder, hall, hmap, rfl⟩
  | collectedShared challengesMap urls hv =>
    obtain ⟨as, before, horder, rfl, hall, hmap, rfl⟩ := hp
    rw [List.append_nil] at horder
    simp only [gathered, hv] at hmap
    exact ⟨before, horder, hall, by simp only [visible, hv, hmap], List.suffix_refl _⟩
  | bound listen challengesMap urls =>
    obtain ⟨⟨_, hv⟩, as, horder, hall, rfl, rfl⟩ := hp
    exact ⟨as, horder, hall, by simp only [visible, hv], List.suffix_refl _⟩
  | notified url urls => exact Ready.suffix hp (List.suffix_cons url urls)
  | succeeded issued fs files _ => exact progress_finish _
  | keyTmpRemoved result fs files _ => exact progress_finish _
  | storeCleared result => exact fun _ => rfl
  -- nothing is promised of the places past the order
  | _ => first | exact hp | trivial

@[simp] theorem dropServer_challenges (call : Call) (w : World) :
    (dropServer call w).challenges = w.challenges := by
  unfold dropServer
  cases call.variant <;> rfl

theorem step_challenges {call : Call} {w : World} {pc : Pc} {r : AcmeProvision.Reply}
    {o : World × Pc} {listen : String} (hv : call.variant = .provision listen)
    (hw : w.challenges = noChallenges) (h : step call w pc r = some o) :
    o.1.challenges = noChallenges := by
  cases step_cases h with
  | answerShared auth todo challengesMap urls c variant _ => cases hv.symm.trans variant
  | storeCleared result => rfl
  | _ => first | exact hw | exact (dropServer_challenges call _).trans hw

def mainOrder : Event → Option (List Authorization)
  | .main (.acme (.authorizations (.ok as))) => some as
  | _ => none

def renewalOrder : Event → Option (List Authorization)
  | .renewal (.acme (.authorizations (.ok as))) => some as
  | _ => none

def lastOrder (f : Event → Option (List Authorization)) (tr : List (State H × Event)) :
    Option (List Authorization) := (tr.filterMap fun p => f p.2).getLast?

theorem lastOrder_snoc (f : Event → Option (List Authorization)) (tr : List (State H × Event))
    (s : State H) (e : Event) : lastOrder f (tr ++ [(s, e)]) = (f e).or (lastOrder f tr) := by
  rw [lastOrder, List.filterMap_append]
  cases h : f e with
  | none => simp [lastOrder, h]
  | some as => simp [h]

theorem mainOrder_acme (tr : List (State H × Event)) (s : State H) (r : AcmeProvision.Reply) :
    lastOrder mainOrder (tr ++ [(s, .main (.acme r))]) = orderAfter (lastOrder mainOrder tr) r := by
  rw [lastOrder_snoc]
  cases r with
  | authorizations r => cases r <;> rfl
  | _ => rfl

theorem renewalOrder_acme (tr : List (State H × Event)) (s : State H) (r : AcmeProvision.Reply) :
    lastOrder renewalOrder (tr ++ [(s, .renewal (.acme r))]) =
      orderAfter (lastOrder renewalOrder tr) r := by
  rw [lastOrder_snoc]
  cases r with
  | authorizations r => cases r <;> rfl
  | _ => rfl

structure Invariant (tr : List (State H × Event)) (s : State H) : Prop where
  spawning : Spawning s
  main : ∀ boot call pc, s.main = .provisioning boot call pc →
    (∃ listen, call.variant = .provision listen) ∧
    Progress call (lastOrder mainOrder tr) (s.world call.tlsConfig.cacheDir) pc
  renewal : ∀ r call pc, s.renewal = some (.provisioning r call pc) →
    call.variant = .provisionWithStore ∧
    Progress call (lastOrder renewalOrder tr) (s.world r.tlsConfig.cacheDir) pc
  cleared : (∀ r call pc, s.renewal ≠ some (.provisioning r call pc)) →
    s.challenges = noChallenges

theorem boot_invariant (file : StatePublication.FileVersion)
    (dirs : String → CertificateCache.CacheDir) (instant wall : ℕ) :
    Invariant [] (boot H file dirs instant wall) := by
  refine ⟨boot_spawning H file dirs instant wall, ?_, ?_, fun _ => rfl⟩
  · intro b call pc hm
    simp only [boot] at hm
    cases hm
  · intro r call pc hr
    simp only [boot] at hr
    cases hr

theorem Invariant.alone {tr : List (State H × Event)} {s : State H} (h : Invariant tr s)
    {boot : Boot} {call : Call} {pc : Pc} (hm : s.main = .provisioning boot call pc) :
    s.renewal = none :=
  h.spawning.renewal (by rw [hm]; rfl)

theorem Invariant.frame {tr : List (State H × Event)} {s t : State H} {e : Event}
    (h : Invariant tr s) (hs : Spawning t)
    (hm : ∀ boot call pc, t.main = .provisioning boot call pc →
      s.main = .provisioning boot call pc ∨
        (∃ listen, call.variant = .provision listen) ∧ pc = .createDir)
    (hr : ∀ r call pc, t.renewal = some (.provisioning r call pc) →
      s.renewal = some (.provisioning r call pc) ∨
        call.variant = .provisionWithStore ∧ pc = .createDir ∧ s.challenges = noChallenges)
    (hr' : ∀ r call pc, s.renewal = some (.provisioning r call pc) → t.renewal = s.renewal)
    (hc : t.challenges = s.challenges) (hp : t.responder = s.responder)
    (hmain : mainOrder e = none) (hrenewal : renewalOrder e = none) :
    Invariant (tr ++ [(s, e)]) t := by
  refine ⟨hs, ?_, ?_, ?_⟩
  · intro boot call pc ht
    rw [lastOrder_snoc, hmain, Option.none_or]
    rcases hm boot call pc ht with ht | ⟨⟨listen, hv⟩, rfl⟩
    · obtain ⟨hv, hpc⟩ := h.main boot call pc ht
      exact ⟨hv, hpc.frame hc hp⟩
    · refine ⟨⟨listen, hv⟩, fun hstore => ?_⟩
      rw [hv] at hstore
      cases hstore
  · intro r call pc ht
    rw [lastOrder_snoc, hrenewal, Option.none_or]
    rcases hr r call pc ht with ht | ⟨hv, rfl, hnone⟩
    · obtain ⟨hv, hpc⟩ := h.renewal r call pc ht
      exact ⟨hv, hpc.frame hc hp⟩
    · exact ⟨hv, fun _ => hc.trans hnone⟩
  · intro hno
    rw [hc]
    refine h.cleared fun r call pc ht => ?_
    exact hno r call pc ((hr' r call pc ht).trans ht)

theorem mainOrder_elsewhere {s : State H} {pc : MainPc H} {r : Reply} {eff : MainEffect H}
    (h : mainStep s pc r = some eff) (hpc : ∀ boot call q, pc ≠ .provisioning boot call q) :
    mainOrder (.main r) = none := by
  cases r with
  | acme reply =>
    cases pc <;> try cases h
    exact absurd rfl (hpc _ _ _)
  | _ => rfl

theorem renewalOrder_elsewhere {s : State H} {pc : RenewalPc H} {r : Reply}
    {eff : RenewalEffect H} (h : renewalStep s pc r = some eff)
    (hpc : ∀ reading call q, pc ≠ .provisioning reading call q) :
    renewalOrder (.renewal r) = none := by
  cases r with
  | acme reply =>
    cases pc <;> try cases h
    exact absurd rfl (hpc _ _ _)
  | _ => rfl

theorem readAgain_begins {s : State H} {boot boot' : Boot} {r : Reply} {call : Call} {pc : Pc}
    (h : mainStep s (.readAgain boot) r = some (.goto (.provisioning boot' call pc))) :
    (∃ listen, call.variant = .provision listen) ∧ pc = .createDir := by
  cases r <;> try cases h
  rename_i a
  cases a <;> try cases h
  obtain ⟨res, _, he⟩ := Option.map_eq_some_iff.mp h
  cases res with
  | error e => cases he
  | ok reading =>
    simp only [leaveOr, afterReadAgain] at he
    split at he
    · cases he
    · split at he
      · cases he
      · cases he
        exact ⟨⟨_, rfl⟩, rfl⟩

theorem provision_main {tr : List (State H × Event)} {s : State H} {boot : Boot} {call : Call}
    {pc pc' : Pc} {reply : AcmeProvision.Reply} {w : World} (h : Invariant tr s)
    (hm : s.main = .provisioning boot call pc)
    (hstep : step call (s.world call.tlsConfig.cacheDir) pc reply = some (w, pc'))
    (hs : Spawning { s.provisioned call.tlsConfig.cacheDir w with
      main := afterMainProvision boot call pc' }) :
    Invariant (tr ++ [(s, .main (.acme reply))]) { s.provisioned call.tlsConfig.cacheDir w with
      main := afterMainProvision boot call pc' } := by
  obtain ⟨⟨listen, hv⟩, hpc⟩ := h.main boot call pc hm
  have hnone := h.alone hm
  have hempty : s.challenges = noChallenges := h.cleared (by simp [hnone])
  refine ⟨hs, ?_, ?_, ?_⟩
  · intro boot' call' q ht
    rcases afterMainProvision_cases (H := H) boot call pc' with hp | ⟨_, hp⟩ | hp <;> rw [hp] at ht
    · cases ht
    · cases ht
    · cases ht
      rw [mainOrder_acme]
      exact ⟨⟨listen, hv⟩, (progress_step hpc hstep).frame rfl rfl⟩
  · intro r call' q ht
    rw [show s.renewal = some _ from ht] at hnone
    cases hnone
  · intro _
    exact step_challenges (w := s.world call.tlsConfig.cacheDir) hv hempty hstep

theorem invariant_main {tr : List (State H × Event)} {s : State H} {r : Reply}
    {eff : MainEffect H} (h : Invariant tr s) (hs : Spawning (s.mainEffect eff))
    (he : mainStep s s.main r = some eff) :
    Invariant (tr ++ [(s, .main r)]) (s.mainEffect eff) := by
  by_cases hprov : ∃ boot call pc, s.main = .provisioning boot call pc
  · obtain ⟨boot, call, pc, hm⟩ := hprov
    rw [hm] at he
    cases r <;> try cases he
    · rename_i a
      cases a <;> cases he
    · obtain ⟨⟨w, pc'⟩, hstep, rfl⟩ := Option.map_eq_some_iff.mp he
      exact provision_main h hm hstep hs
  · have hno : ∀ boot call pc, s.main ≠ .provisioning boot call pc := by
      intro boot call pc hm
      exact hprov ⟨boot, call, pc, hm⟩
    have horder := mainOrder_elsewhere he hno
    generalize hpc : s.main = pc at he hno
    have hcase := mainStep_cases he
    cases hcase with
    | provision boot call q => exact absurd rfl (hno boot call q)
    | readAgainOk boot reply call =>
      refine h.frame hs ?_ (fun _ _ _ hr => Or.inl hr) (fun _ _ _ _ => rfl) rfl rfl horder rfl
      intro boot' call' q ht
      cases ht
      exact Or.inr (readAgain_begins he)
    | renew boot reply redirect =>
      have hnone : s.renewal = none := h.spawning.renewal (by rw [hpc]; rfl)
      refine h.frame hs ?_ ?_ ?_ rfl rfl horder rfl
      · intro boot' call' q ht
        simp only [State.mainEffect] at ht
        cases ht
      · intro reading call' q ht
        simp only [State.mainEffect] at ht
        cases ht
      · intro reading call q hr
        rw [hnone] at hr
        cases hr
    | watch boot reply mtime =>
      refine h.frame hs ?_ (fun _ _ _ hr => Or.inl hr) (fun _ _ _ _ => rfl) rfl rfl horder rfl
      intro boot' call' q ht
      simp only [State.mainEffect] at ht
      split at ht <;> cases ht
    | _ =>
      refine h.frame hs ?_ (fun _ _ _ hr => Or.inl hr) (fun _ _ _ _ => rfl) rfl rfl horder rfl
      intro boot' call' q ht
      simp only [State.mainEffect] at ht
      cases ht

theorem provision_renewal {tr : List (State H × Event)} {s : State H}
    {r : StatePublication.RenewalReading H} {call : Call} {pc pc' : Pc}
    {reply : AcmeProvision.Reply} {w : World} (h : Invariant tr s)
    (hr : s.renewal = some (.provisioning r call pc))
    (hstep : step call (s.world r.tlsConfig.cacheDir) pc reply = some (w, pc'))
    (hs : Spawning { s.provisioned r.tlsConfig.cacheDir w with
      renewal := some (afterRenewalProvision r call pc') }) :
    Invariant (tr ++ [(s, .renewal (.acme reply))]) { s.provisioned r.tlsConfig.cacheDir w with
      renewal := some (afterRenewalProvision r call pc') } := by
  obtain ⟨hv, hpc⟩ := h.renewal r call pc hr
  have hprogress := progress_step hpc hstep
  refine ⟨hs, ?_, ?_, ?_⟩
  · intro boot call' q hm
    rw [h.alone (show s.main = _ from hm)] at hr
    cases hr
  · intro r' call' q ht
    have ht := Option.some.inj ht
    rcases afterRenewalProvision_cases r call pc' with hgo | ⟨_, _, hgo⟩ | ⟨_, _, hgo⟩ <;>
      rw [hgo] at ht <;> cases ht
    rw [renewalOrder_acme]
    exact ⟨hv, hprogress.frame rfl rfl⟩
  · intro hno
    rcases afterRenewalProvision_cases r call pc' with hgo | ⟨_, rfl, _⟩ | ⟨_, rfl, _⟩
    · exact absurd (congrArg some hgo) (hno r call pc')
    · exact hprogress hv
    · exact hprogress hv

theorem startProvision_begins {r r' : StatePublication.RenewalReading H} {call : Call} {pc : Pc}
    (h : startProvision true r = .provisioning r' call pc) :
    call.variant = .provisionWithStore ∧ pc = .createDir := by
  cases h
  exact ⟨rfl, rfl⟩

theorem invariant_renewal {tr : List (State H × Event)} {s : State H} {r : Reply}
    {pc : RenewalPc H} {eff : RenewalEffect H} (h : Invariant tr s)
    (hs : Spawning (s.renewalEffect eff)) (hpc : s.renewal = some pc)
    (he : renewalStep s pc r = some eff) :
    Invariant (tr ++ [(s, .renewal r)]) (s.renewalEffect eff) := by
  by_cases hprov : ∃ reading call q, pc = .provisioning reading call q
  · obtain ⟨reading, call, q, rfl⟩ := hprov
    cases r <;> try cases he
    · rename_i a
      cases a <;> cases he
    · obtain ⟨⟨w, pc'⟩, hstep, rfl⟩ := Option.map_eq_some_iff.mp he
      exact provision_renewal h hpc hstep hs
  · have hno : ∀ reading call q, pc ≠ .provisioning reading call q := by
      intro reading call q hp
      exact hprov ⟨reading, call, q, hp⟩
    have hempty : s.challenges = noChallenges := by
      refine h.cleared fun reading call q hq => ?_
      exact hno reading call q (Option.some.inj (hpc.symm.trans hq))
    have hstore : s.challengeStore = true := h.spawning.store (by rw [hpc]; simp)
    have horder := renewalOrder_elsewhere he hno
    -- none is live: one may begin
    have goes : ∀ t : State H, Spawning t → t.main = s.main →
        (∀ reading call q, t.renewal = some (.provisioning reading call q) →
          call.variant = .provisionWithStore ∧ q = .createDir) →
        t.challenges = s.challenges → t.responder = s.responder →
        Invariant (tr ++ [(s, .renewal r)]) t := by
      intro t ht hm hr hc hp
      refine h.frame ht (fun boot call q hq => Or.inl (hm ▸ hq)) ?_ ?_ hc hp rfl horder
      · intro reading call q hq
        obtain ⟨hv, hcreate⟩ := hr reading call q hq
        exact Or.inr ⟨hv, hcreate, hempty⟩
      · intro reading call q hq
        exact absurd (Option.some.inj (hpc.symm.trans hq)) (hno reading call q)
    cases renewalStep_cases he with
    | provision reading call q => exact absurd rfl (hno reading call q)
    | certMissing reading reply hm =>
      refine goes _ hs rfl ?_ rfl rfl
      intro reading' call q hq
      rw [hstore] at hq
      exact startProvision_begins (Option.some.inj hq)
    | due reading reply res hread hdue =>
      refine goes _ hs rfl ?_ rfl rfl
      intro reading' call q hq
      rw [hstore] at hq
      exact startProvision_begins (Option.some.inj hq)
    | _ =>
      refine goes _ hs rfl ?_ rfl rfl
      intro reading' call q hq
      simp only [State.renewalEffect] at hq
      cases hq

theorem invariant_step {tr : List (State H × Event)} {s t : State H} {e : Event}
    (h : Invariant tr s) (hstep : Step s e t) : Invariant (tr ++ [(s, e)]) t := by
  have hs := spawning_step h.spawning hstep
  cases hstep with
  | main r eff he => exact invariant_main h hs he
  | renewal r pc eff hpc he => exact invariant_renewal h hs hpc he
  | reload r pc eff hpc he =>
    cases eff <;>
      exact h.frame hs (fun _ _ _ hm => Or.inl hm) (fun _ _ _ hr => Or.inl hr)
        (fun _ _ _ _ => rfl) rfl rfl rfl rfl
  | acceptError m ha | shutdown ha =>
    refine h.frame hs ?_ (fun _ _ _ hr => Or.inl hr) (fun _ _ _ _ => rfl) rfl rfl rfl rfl
    intro boot call q hm
    simp only at hm
    cases hm
  | _ =>
    exact h.frame hs (fun _ _ _ hm => Or.inl hm) (fun _ _ _ hr => Or.inl hr)
      (fun _ _ _ _ => rfl) rfl rfl rfl rfl

/-- From the first `set_challenge_ready` until the order is Ready or the call has failed. -/
def Awaiting : Pc → Prop
  | .setReady _ | .sleepOrder _ _ | .refresh _ => True
  | _ => False

def Served (responder : Request → Response) (order : List Authorization) : Prop :=
  ∀ c ∈ chosen order, ∀ req, req.uri.path = challengePrefix ++ c.token →
    responder req = textResponse 200 "text/plain" c.keyAuthorization

/-- Every authorization of the order has an HTTP-01 challenge, and what is still to be notified
is among them. -/
def Notifies (order : List Authorization) (urls : List String) : Prop :=
  Complete order ∧ ∀ url ∈ urls, ∃ c ∈ chosen order, c.url = url

/-- The `provision_with_store` of the renewal loop. -/
def StoreCall (s : State H) (pc : Pc) : Prop :=
  ∃ r tlsConfig, s.renewal = some (.provisioning r ⟨.provisionWithStore, tlsConfig⟩ pc)

structure Http01 (tr : List (State H × Event)) (s : State H) : Prop where
  startUp : ∀ boot call pc, s.main = .provisioning boot call pc → Awaiting pc →
    ∃ order challenges, lastOrder mainOrder tr = some order ∧ s.responder = some challenges ∧
      (DistinctTokens order → Served (challengeServer challenges) order)
  renewal : ∀ pc, StoreCall s pc → Awaiting pc →
    ∃ order, lastOrder renewalOrder tr = some order ∧
      (DistinctTokens order → ∀ httpsPort, Served (redirectServer httpsPort s.challenges) order)
  startUpNotifies : ∀ boot call urls, s.main = .provisioning boot call (.setReady urls) →
    ∃ order, lastOrder mainOrder tr = some order ∧ Notifies order urls
  renewalNotifies : ∀ urls, StoreCall s (.setReady urls) →
    ∃ order, lastOrder renewalOrder tr = some order ∧ Notifies order urls
  cleared : (∀ pc, ¬ StoreCall s pc) → s.challenges = noChallenges ∧
    ∀ httpsPort req, redirectServer httpsPort s.challenges req =
      ⟨301, [("location", redirectLocation httpsPort req)], []⟩

theorem Progress.awaiting {call : Call} {order : Option (List Authorization)} {w : World}
    {pc : Pc} (h : Progress call order w pc) (hpc : Awaiting pc) :
    ∃ urls, Ready call order w urls := by
  cases pc <;> try exact absurd hpc id
  case setReady urls => exact ⟨urls, h⟩
  case sleepOrder => exact ⟨[], h⟩
  case refresh => exact ⟨[], h⟩

theorem Ready.notifies {call : Call} {order : Option (List Authorization)} {w : World}
    {urls : List String} (h : Ready call order w urls) :
    ∃ as, order = some as ∧ Notifies as urls := by
  obtain ⟨as, horder, hall, _, hurls⟩ := h
  exact ⟨as, horder, hall, fun url hurl => List.mem_map.mp (hurls.subset hurl)⟩

theorem Invariant.http01 {tr : List (State H × Event)} {s : State H} (h : Invariant tr s) :
    Http01 tr s where
  startUp boot call pc hm hpc := by
    obtain ⟨⟨listen, hv⟩, hprogress⟩ := h.main boot call pc hm
    obtain ⟨urls, order, horder, _, hvisible, _⟩ := hprogress.awaiting hpc
    simp only [visible, hv] at hvisible
    refine ⟨order, _, horder, hvisible, fun hdistinct c hc req hpath => ?_⟩
    exact challengeServer_found hpath (insertAll_chosen hdistinct hc)
  renewal := by
    rintro pc ⟨r, tlsConfig, hr⟩ hpc
    obtain ⟨_, hprogress⟩ := h.renewal r _ pc hr
    obtain ⟨urls, order, horder, _, hvisible, _⟩ := hprogress.awaiting hpc
    have hmap : s.challenges = insertAll (chosen order) noChallenges := Option.some.inj hvisible
    refine ⟨order, horder, fun hdistinct httpsPort c hc req hpath => ?_⟩
    rw [hmap]
    exact redirectServer_found hpath (insertAll_chosen hdistinct hc)
  startUpNotifies boot call urls hm := by
    have hready : Ready call (lastOrder mainOrder tr) _ urls := (h.main boot call _ hm).2
    exact hready.notifies
  renewalNotifies := by
    rintro urls ⟨r, tlsConfig, hr⟩
    have hready : Ready _ (lastOrder renewalOrder tr) _ urls := (h.renewal r _ _ hr).2
    exact hready.notifies
  cleared hno := by
    have hempty : s.challenges = noChallenges := by
      refine h.cleared fun r call pc hr => ?_
      obtain ⟨hv, _⟩ := h.renewal r call pc hr
      exact hno pc ⟨r, call.tlsConfig, by rw [hr, ← hv]⟩
    exact ⟨hempty, fun httpsPort req => by rw [hempty, redirectServer_empty]⟩

theorem http01_served (H : Host) (file : StatePublication.FileVersion)
    (dirs : String → CertificateCache.CacheDir) (instant wall : ℕ)
    {tr : List (State H × Event)} {u : State H}
    (h : Run next (boot H file dirs instant wall) tr u) : Http01 tr u := by
  have hi : Invariant tr u :=
    h.traced_invariant (boot_invariant file dirs instant wall)
      fun _ _ _ _ ht hn => invariant_step ht (step_of_next hn)
  exact hi.http01

def sampleOrder : List Authorization :=
  [⟨[⟨.dns01, "dns", "https://acme/1", "dns.key"⟩, ⟨.http01, "tok", "https://acme/2", "tok.key"⟩]⟩]

def sampleProvision : List Event :=
  [.main .ok, .main .noPlugins, .main .ok, .main .proceed, .main .ok] ++
  [.unit (.ok ()), .fs .ok, .fs .ok, .unit (.ok ()), .unit (.ok ()),
    .authorizations (.ok sampleOrder), .proceed, .proceed,
    .unit (.ok ())].map fun r => .main (.acme r)

theorem http01_served_ready : ∃ tr u,
    Run next (boot sampleHost ⟨1, "127.0.0.1:3000"⟩ (fun _ _ => none) 0 1700000000) tr u ∧
    (u.responder.map fun m =>
      challengeServer m ⟨"GET", .origin (challengePrefix ++ "tok") none, [], []⟩) =
        some (textResponse 200 "text/plain" "tok.key") ∧ Http01 tr u := by
  obtain ⟨u, hr, hv⟩ := run_of_view next
    (boot sampleHost ⟨1, "127.0.0.1:3000"⟩ (fun _ _ => none) 0 1700000000) sampleProvision
    (fun s => s.responder.map fun m =>
      challengeServer m ⟨"GET", .origin (challengePrefix ++ "tok") none, [], []⟩)
    (some (textResponse 200 "text/plain" "tok.key")) rfl
  exact ⟨_, u, hr, hv, http01_served _ _ _ _ _ hr⟩

end ChallengeServing
