import PrismProxy.AcmeProvision

/-! # What a step of provisioning can do

`AcmeProvision.step` inverted once: the list of its steps with their guards. What each stage does
to the files, and every invariant of a call, is proved from this list. -/
namespace AcmeProvision

open ProxyConfig CertificateCache

def Pc.orders : Pc → Bool
  | .account _ _ | .newOrder _ | .authorizations | .collect _ _ _ | .bindServer _ _ _
  | .setReady _ | .sleepOrder _ _ | .refresh _ | .certParams _ | .generateKey | .serializeCsr _
  | .finalize _ | .sleepCert _ _ _ | .certificate _ _ => true
  | _ => false

inductive ProvisionStep (call : Call) (w : World) : Pc → Reply → World × Pc → Prop where
  | dirMade : ProvisionStep call w .createDir (.unit (.ok ())) (w, .checkLock)
  | noDir (e : String) :
      ProvisionStep call w .createDir (.unit (.error e))
        (w, .done (.error (.acme s!"create cache_dir: {e}")))
  | unlocked (fs : FsReply) (absent : fileExists w.files .renewing fs = some false) :
      ProvisionStep call w .checkLock (.fs fs) (w, .createLock)
  | locked (fs : FsReply) (found : fileExists w.files .renewing fs = some true) :
      ProvisionStep call w .checkLock (.fs fs)
        (w, .done (.error (.acme "another renewal is in progress (.renewing exists)")))
  | lockMade (fs : FsReply) (files : CacheDir)
      (write : writeFile w.files .renewing "" fs = some (.ok (), files)) :
      ProvisionStep call w .createLock (.fs fs) ({ w with files },
        .account s!"mailto:{call.tlsConfig.acmeEmail}" call.tlsConfig.acmeDirectory)
  | noLock (fs : FsReply) (e : String) (files : CacheDir)
      (write : writeFile w.files .renewing "" fs = some (.error e, files)) :
      ProvisionStep call w .createLock (.fs fs)
        ({ w with files }, .done (.error (.acme s!"create lockfile: {e}")))
  | failed (pc : Pc) (r : Reply) (message : String) (orders : pc.orders = true) :
      ProvisionStep call w pc r (dropServer call w, .unlock (.error (.acme message)))
  | accountMade (contact directory : String) :
      ProvisionStep call w (.account contact directory) (.unit (.ok ()))
        (w, .newOrder call.tlsConfig.domains)
  | orderMade (identifiers : List String) :
      ProvisionStep call w (.newOrder identifiers) (.unit (.ok ())) (w, .authorizations)
  | orderRead (as : List Authorization) :
      ProvisionStep call w .authorizations (.authorizations (.ok as))
        (w, .collect as noChallenges [])
  | answerOwn (listen : String) (auth : Authorization) (todo : List Authorization)
      (challengesMap : ChallengeMap) (urls : List String) (c : Challenge)
      (variant : call.variant = .provision listen)
      (found : (auth.challenges.find? fun c => c.type == .http01) = some c) :
      ProvisionStep call w (.collect (auth :: todo) challengesMap urls) .proceed
        (w, .collect todo (Function.update challengesMap c.token (some c.keyAuthorization))
          (urls ++ [c.url]))
  | answerShared (auth : Authorization) (todo : List Authorization)
      (challengesMap : ChallengeMap) (urls : List String) (c : Challenge)
      (variant : call.variant = .provisionWithStore)
      (found : (auth.challenges.find? fun c => c.type == .http01) = some c) :
      ProvisionStep call w (.collect (auth :: todo) challengesMap urls) .proceed
        ({ w with challenges := Function.update w.challenges c.token (some c.keyAuthorization) },
          .collect todo challengesMap (urls ++ [c.url]))
  | collectedOwn (listen : String) (challengesMap : ChallengeMap) (urls : List String)
      (variant : call.variant = .provision listen) :
      ProvisionStep call w (.collect [] challengesMap urls) .proceed
        (w, .bindServer listen challengesMap urls)
  | collectedShared (challengesMap : ChallengeMap) (urls : List String)
      (variant : call.variant = .provisionWithStore) :
      ProvisionStep call w (.collect [] challengesMap urls) .proceed (w, .setReady urls)
  | bound (listen : String) (challengesMap : ChallengeMap) (urls : List String) :
      ProvisionStep call w (.bindServer listen challengesMap urls) (.unit (.ok ()))
        ({ w with responder := some challengesMap }, .setReady urls)
  | notified (url : String) (urls : List String) :
      ProvisionStep call w (.setReady (url :: urls)) (.unit (.ok ())) (w, .setReady urls)
  | allNotified :
      ProvisionStep call w (.setReady []) .proceed
        (w, .sleepOrder (w.instant + secs 120) (w.instant + secs 3))
  | orderDue (deadline wake : ℕ) (due : wake ≤ w.instant) :
      ProvisionStep call w (.sleepOrder deadline wake) .proceed (w, .refresh deadline)
  | orderReady (deadline : ℕ) :
      ProvisionStep call w (.refresh deadline) (.orderStatus (.ok .ready))
        (dropServer call w, .certParams call.tlsConfig.domains)
  | orderPending (deadline : ℕ) (st : OrderStatus) (undecided : st ≠ .ready ∧ st ≠ .invalid)
      (inTime : w.instant ≤ deadline) :
      ProvisionStep call w (.refresh deadline) (.orderStatus (.ok st))
        (w, .sleepOrder deadline (w.instant + secs 3))
  | paramsMade (domains : List String) :
      ProvisionStep call w (.certParams domains) (.unit (.ok ())) (w, .generateKey)
  | keyMade (keyPem : String) :
      ProvisionStep call w .generateKey (.keyPair (.ok keyPem)) (w, .serializeCsr keyPem)
  | csrMade (keyPem : String) :
      ProvisionStep call w (.serializeCsr keyPem) (.unit (.ok ())) (w, .finalize keyPem)
  | finalized (keyPem : String) (wake : ℕ)
      (poll : pollCert call w keyPem (certDeadline call w) =
        (w, .sleepCert keyPem (certDeadline call w) wake)) :
      ProvisionStep call w (.finalize keyPem) (.unit (.ok ()))
        (w, .sleepCert keyPem (certDeadline call w) wake)
  | certDue (keyPem : String) (deadline : Option ℕ) (wake : ℕ) (due : wake ≤ w.instant) :
      ProvisionStep call w (.sleepCert keyPem deadline wake) .proceed
        (w, .certificate keyPem deadline)
  | certPending (keyPem : String) (deadline : Option ℕ) (wake : ℕ)
      (inTime : ∀ d, deadline = some d → w.instant ≤ d)
      (poll : pollCert call w keyPem deadline = (w, .sleepCert keyPem deadline wake)) :
      ProvisionStep call w (.certificate keyPem deadline) (.certificate (.ok none))
        (w, .sleepCert keyPem deadline wake)
  | certIssued (keyPem : String) (deadline : Option ℕ) (certPem : String) :
      ProvisionStep call w (.certificate keyPem deadline) (.certificate (.ok (some certPem)))
        (w, .writeCertTmp certPem keyPem)
  | certTmpWritten (certPem keyPem : String) (fs : FsReply) (files : CacheDir)
      (write : writeFile w.files .certTmp certPem fs = some (.ok (), files)) :
      ProvisionStep call w (.writeCertTmp certPem keyPem) (.fs fs)
        ({ w with files }, .writeKeyTmp certPem keyPem)
  | certTmpFailed (certPem keyPem : String) (fs : FsReply) (e message : String) (files : CacheDir)
      (write : writeFile w.files .certTmp certPem fs = some (.error e, files)) :
      ProvisionStep call w (.writeCertTmp certPem keyPem) (.fs fs)
        (dropServer call { w with files }, .unlock (.error (.acme message)))
  | keyTmpWritten (certPem keyPem : String) (fs : FsReply) (files : CacheDir)
      (write : writeFile w.files .keyTmp keyPem fs = some (.ok (), files)) :
      ProvisionStep call w (.writeKeyTmp certPem keyPem) (.fs fs)
        ({ w with files }, .renameCert certPem keyPem)
  | keyTmpFailed (certPem keyPem : String) (fs : FsReply) (e message : String) (files : CacheDir)
      (write : writeFile w.files .keyTmp keyPem fs = some (.error e, files)) :
      ProvisionStep call w (.writeKeyTmp certPem keyPem) (.fs fs)
        (dropServer call { w with files }, .unlock (.error (.acme message)))
  | certRenamed (certPem keyPem : String) (fs : FsReply) (files : CacheDir)
      (rename : renameFile w.files .certTmp .cert fs = some (.ok (), files)) :
      ProvisionStep call w (.renameCert certPem keyPem) (.fs fs)
        ({ w with files }, .renameKey certPem keyPem)
  | certKept (certPem keyPem : String) (fs : FsReply) (e message : String) (files : CacheDir)
      (rename : renameFile w.files .certTmp .cert fs = some (.error e, files)) :
      ProvisionStep call w (.renameCert certPem keyPem) (.fs fs)
        (dropServer call { w with files }, .unlock (.error (.acme message)))
  | keyRenamed (certPem keyPem : String) (fs : FsReply) (files : CacheDir)
      (rename : renameFile w.files .keyTmp .key fs = some (.ok (), files)) :
      ProvisionStep call w (.renameKey certPem keyPem) (.fs fs)
        ({ w with files }, .writeIssuedAt certPem keyPem)
  | keyKept (certPem keyPem : String) (fs : FsReply) (e message : String) (files : CacheDir)
      (rename : renameFile w.files .keyTmp .key fs = some (.error e, files)) :
      ProvisionStep call w (.renameKey certPem keyPem) (.fs fs)
        (dropServer call { w with files }, .unlock (.error (.acme message)))
  | issuedAtWritten (certPem keyPem : String) (fs : FsReply) (res : Except String Unit)
      (files : CacheDir)
      (write : writeFile w.files .issuedAt (toString w.wall) fs = some (res, files))
      (variant : call.variant = .provisionWithStore → res = .ok ()) :
      ProvisionStep call w (.writeIssuedAt certPem keyPem) (.fs fs)
        ({ w with files }, .unlock (.ok (certPem, keyPem)))
  | issuedAtFailed (certPem keyPem : String) (fs : FsReply) (e message : String) (files : CacheDir)
      (write : writeFile w.files .issuedAt (toString w.wall) fs = some (.error e, files))
      (variant : call.variant = .provisionWithStore) :
      ProvisionStep call w (.writeIssuedAt certPem keyPem) (.fs fs)
        (dropServer call { w with files }, .unlock (.error (.acme message)))
  | gaveUp (e : ProxyError) (fs : FsReply) (files : CacheDir)
      (remove : removeFile w.files .renewing fs = some files) :
      ProvisionStep call w (.unlock (.error e)) (.fs fs)
        ({ w with files }, .removeCertTmp (.error e))
  | succeeded (issued : Issued) (fs : FsReply) (files : CacheDir)
      (remove : removeFile w.files .renewing fs = some files) :
      ProvisionStep call w (.unlock (.ok issued)) (.fs fs)
        ({ w with files }, finish call (.ok issued))
  | certTmpRemoved (result : Except ProxyError Issued) (fs : FsReply) (files : CacheDir)
      (remove : removeFile w.files .certTmp fs = some files) :
      ProvisionStep call w (.removeCertTmp result) (.fs fs) ({ w with files }, .removeKeyTmp result)
  | keyTmpRemoved (result : Except ProxyError Issued) (fs : FsReply) (files : CacheDir)
      (remove : removeFile w.files .keyTmp fs = some files) :
      ProvisionStep call w (.removeKeyTmp result) (.fs fs) ({ w with files }, finish call result)
  | storeCleared (result : Except ProxyError Issued) :
      ProvisionStep call w (.clearStore result) .proceed
        ({ w with challenges := noChallenges }, .done result)

section Inversion

variable {call : Call} {w : World} {pc : Pc} {r : Reply} {o : World × Pc}

theorem attempt_cases {α : Type} {what : String} {res : Except String α} {k : α → World × Pc}
    (ho : pc.orders = true) (h : ∀ a, res = .ok a → ProvisionStep call w pc r (k a)) :
    ProvisionStep call w pc r (attempt call w what res k) := by
  cases res with
  | ok a => exact h a rfl
  | error e => exact .failed pc r _ ho

theorem attemptFs_cases {what : String} {next : Pc}
    {res : Option (Except String Unit × CacheDir)} (h : attemptFs call w what next res = some o) :
    (∃ files, res = some (.ok (), files) ∧ o = ({ w with files }, next)) ∨
    ∃ e files message, res = some (.error e, files) ∧
      o = (dropServer call { w with files }, .unlock (.error (.acme message))) := by
  obtain ⟨⟨res, files⟩, hres, rfl⟩ := Option.map_eq_some_iff.mp h
  cases res with
  | ok => exact Or.inl ⟨files, hres, rfl⟩
  | error e => exact Or.inr ⟨e, files, _, hres, rfl⟩

theorem pollCert_sleeps (call : Call) (w : World) (keyPem : String) (deadline : Option ℕ) :
    ∃ wake, pollCert call w keyPem deadline = (w, .sleepCert keyPem deadline wake) := by
  unfold pollCert
  split <;> exact ⟨_, rfl⟩

theorem collectStep_cases (auth : Authorization) (todo : List Authorization)
    (challengesMap : ChallengeMap) (urls : List String) :
    ProvisionStep call w (.collect (auth :: todo) challengesMap urls) .proceed
      (collectStep call w auth todo challengesMap urls) := by
  unfold collectStep
  split
  · exact .failed _ _ _ rfl
  · rename_i c hc
    split
    · rename_i listen hv
      exact .answerOwn listen auth todo challengesMap urls c hv hc
    · rename_i hv
      exact .answerShared auth todo challengesMap urls c hv hc

theorem afterRefresh_cases (deadline : ℕ) (st : OrderStatus) :
    ProvisionStep call w (.refresh deadline) (.orderStatus (.ok st))
      (afterRefresh call w deadline st) := by
  cases st
  case ready => exact .orderReady deadline
  case invalid => exact .failed _ _ _ rfl
  all_goals
    simp only [afterRefresh]
    split
    · exact .failed _ _ _ rfl
    · exact .orderPending deadline _ (by simp) (by omega)

theorem afterCertificate_cases (keyPem : String) (deadline : Option ℕ) (cert : Option String) :
    ProvisionStep call w (.certificate keyPem deadline) (.certificate (.ok cert))
      (afterCertificate call w keyPem deadline cert) := by
  cases cert with
  | some certPem => exact .certIssued keyPem deadline certPem
  | none =>
    obtain ⟨wake, hpoll⟩ := pollCert_sleeps call w keyPem deadline
    cases deadline with
    | none =>
      simp only [afterCertificate, hpoll]
      exact .certPending keyPem none wake (by simp) hpoll
    | some d =>
      simp only [afterCertificate, hpoll]
      split
      · exact .failed _ _ _ rfl
      · exact .certPending keyPem (some d) wake (by simp; omega) hpoll

theorem step_cases (h : step call w pc r = some o) : ProvisionStep call w pc r o := by
  cases pc
  case createDir =>
    cases r <;> try cases h
    rename_i res
    cases res with
    | ok => cases h; exact .dirMade
    | error e => cases h; exact .noDir e
  case checkLock =>
    cases r <;> try cases h
    rename_i fs
    obtain ⟨locked, hlocked, rfl⟩ := Option.map_eq_some_iff.mp h
    cases locked with
    | true => exact .locked fs hlocked
    | false => exact .unlocked fs hlocked
  case createLock =>
    cases r <;> try cases h
    rename_i fs
    obtain ⟨⟨res, files⟩, hwrite, rfl⟩ := Option.map_eq_some_iff.mp h
    cases res with
    | ok => exact .lockMade fs files hwrite
    | error e => exact .noLock fs e files hwrite
  case account contact directory =>
    cases r <;> cases h
    exact attempt_cases rfl fun a ha => ha ▸ .accountMade contact directory
  case newOrder identifiers =>
    cases r <;> cases h
    exact attempt_cases rfl fun a ha => ha ▸ .orderMade identifiers
  case authorizations =>
    cases r <;> cases h
    exact attempt_cases rfl fun as ha => ha ▸ .orderRead as
  case collect todo challengesMap urls =>
    cases r with
    | proceed =>
      cases todo with
      | nil =>
        cases h
        unfold afterCollect
        split
        · rename_i listen hv
          exact .collectedOwn listen challengesMap urls hv
        · rename_i hv
          exact .collectedShared challengesMap urls hv
      | cons auth todo => cases h; exact collectStep_cases auth todo challengesMap urls
    | _ => cases todo <;> cases h
  case bindServer listen challengesMap urls =>
    cases r <;> cases h
    exact attempt_cases rfl fun a ha => ha ▸ .bound listen challengesMap urls
  case setReady urls =>
    cases urls with
    | nil => cases r <;> cases h; exact .allNotified
    | cons url urls =>
      cases r <;> cases h
      exact attempt_cases rfl fun a ha => ha ▸ .notified url urls
  case sleepOrder deadline wake =>
    cases r <;> try cases h
    obtain ⟨hdue, ho⟩ := Option.ite_none_right_eq_some.mp h
    cases ho
    exact .orderDue deadline wake hdue
  case refresh deadline =>
    cases r <;> cases h
    exact attempt_cases rfl fun st ha => ha ▸ afterRefresh_cases deadline st
  case certParams domains =>
    cases r <;> cases h
    exact attempt_cases rfl fun a ha => ha ▸ .paramsMade domains
  case generateKey =>
    cases r <;> cases h
    exact attempt_cases rfl fun keyPem ha => ha ▸ .keyMade keyPem
  case serializeCsr keyPem =>
    cases r <;> cases h
    exact attempt_cases rfl fun a ha => ha ▸ .csrMade keyPem
  case finalize keyPem =>
    cases r <;> cases h
    obtain ⟨wake, hpoll⟩ := pollCert_sleeps call w keyPem (certDeadline call w)
    refine attempt_cases rfl fun a ha => ?_
    rw [ha, hpoll]
    exact .finalized keyPem wake hpoll
  case sleepCert keyPem deadline wake =>
    cases r <;> try cases h
    obtain ⟨hdue, ho⟩ := Option.ite_none_right_eq_some.mp h
    cases ho
    exact .certDue keyPem deadline wake hdue
  case certificate keyPem deadline =>
    cases r <;> cases h
    exact attempt_cases rfl fun cert ha => ha ▸ afterCertificate_cases keyPem deadline cert
  case writeCertTmp certPem keyPem =>
    cases r <;> try cases h
    rcases attemptFs_cases h with ⟨files, hw, rfl⟩ | ⟨e, files, message, hw, rfl⟩
    · exact .certTmpWritten certPem keyPem _ files hw
    · exact .certTmpFailed certPem keyPem _ e message files hw
  case writeKeyTmp certPem keyPem =>
    cases r <;> try cases h
    rcases attemptFs_cases h with ⟨files, hw, rfl⟩ | ⟨e, files, message, hw, rfl⟩
    · exact .keyTmpWritten certPem keyPem _ files hw
    · exact .keyTmpFailed certPem keyPem _ e message files hw
  case renameCert certPem keyPem =>
    cases r <;> try cases h
    rcases attemptFs_cases h with ⟨files, hr, rfl⟩ | ⟨e, files, message, hr, rfl⟩
    · exact .certRenamed certPem keyPem _ files hr
    · exact .certKept certPem keyPem _ e message files hr
  case renameKey certPem keyPem =>
    cases r <;> try cases h
    rcases attemptFs_cases h with ⟨files, hr, rfl⟩ | ⟨e, files, message, hr, rfl⟩
    · exact .keyRenamed certPem keyPem _ files hr
    · exact .keyKept certPem keyPem _ e message files hr
  case writeIssuedAt certPem keyPem =>
    cases r <;> try cases h
    rename_i fs
    simp only [step, afterIssuedAt] at h
    split at h
    · rename_i listen hv
      obtain ⟨⟨res, files⟩, hw, rfl⟩ := Option.map_eq_some_iff.mp h
      exact .issuedAtWritten certPem keyPem fs res files hw (by simp [hv])
    · rename_i hv
      rcases attemptFs_cases h with ⟨files, hw, rfl⟩ | ⟨e, files, message, hw, rfl⟩
      · exact .issuedAtWritten certPem keyPem fs _ files hw fun _ => rfl
      · exact .issuedAtFailed certPem keyPem fs e message files hw hv
  case unlock result =>
    cases r <;> try cases h
    rename_i fs
    obtain ⟨files, hremove, rfl⟩ := Option.map_eq_some_iff.mp h
    cases result with
    | error e => exact .gaveUp e fs files hremove
    | ok issued => exact .succeeded issued fs files hremove
  case removeCertTmp result =>
    cases r <;> try cases h
    obtain ⟨files, hremove, rfl⟩ := Option.map_eq_some_iff.mp h
    exact .certTmpRemoved result _ files hremove
  case removeKeyTmp result =>
    cases r <;> try cases h
    obtain ⟨files, hremove, rfl⟩ := Option.map_eq_some_iff.mp h
    exact .keyTmpRemoved result _ files hremove
  case clearStore result => cases r <;> cases h; exact .storeCleared result
  case done => cases r <;> cases h

end Inversion

section Stages

variable {call : Call} {w w' : World} {pc pc' : Pc} {r : Reply}

/-- A step of the ordering stage touches no file but the lock, and either goes on ordering or
gives up. -/
structure Early (w : World) (o : World × Pc) : Prop where
  files : ∀ f, f ≠ .renewing → o.1.files f = w.files f
  phase : o.2.phase = .ordering ∨ ∃ e, o.2.phase = .returning (.error e)

theorem Early.stay (hf : w'.files = w.files) (hp : pc.phase = .ordering) : Early w (w', pc) :=
  ⟨fun f _ => by rw [hf], Or.inl hp⟩

theorem Early.giveUp {e : ProxyError} (hf : w'.files = w.files)
    (hp : pc.phase = .returning (.error e)) : Early w (w', pc) :=
  ⟨fun f _ => by rw [hf], Or.inr ⟨e, hp⟩⟩

theorem ordering_step (hp : pc.phase = .ordering) (h : step call w pc r = some (w', pc')) :
    Early w (w', pc') ∨ ∃ certPem keyPem deadline, pc = .certificate keyPem deadline ∧
      r = .certificate (.ok (some certPem)) ∧ w' = w ∧ pc' = .writeCertTmp certPem keyPem := by
  cases step_cases h with
  | certIssued keyPem deadline certPem =>
    exact Or.inr ⟨certPem, keyPem, deadline, rfl, rfl, rfl, rfl⟩
  | noDir e => exact Or.inl (Early.giveUp rfl rfl)
  | locked fs found => exact Or.inl (Early.giveUp rfl rfl)
  | failed pc r message _ => exact Or.inl (Early.giveUp (dropServer_files call w) rfl)
  | lockMade fs files write => exact Or.inl ⟨fun f hf => writeFile_other write hf, Or.inl rfl⟩
  | noLock fs e files write =>
    exact Or.inl ⟨fun f hf => writeFile_other write hf, Or.inr ⟨_, rfl⟩⟩
  | orderReady deadline => exact Or.inl (Early.stay (dropServer_files call w) rfl)
  | _ => first | exact Or.inl (Early.stay rfl rfl) | cases hp

theorem writingCertTmp_step {certPem keyPem : String}
    (hp : pc.phase = .writingCertTmp certPem keyPem) (h : step call w pc r = some (w', pc')) :
    pairOf w'.files = pairOf w.files ∧
    ((pc'.phase = .writingKeyTmp certPem keyPem ∧ w'.files .certTmp = some certPem) ∨
      ∃ e, pc'.phase = .returning (.error e)) := by
  cases pc <;> cases hp
  cases step_cases h with
  | failed _ _ message orders => cases orders
  | certTmpWritten _ _ fs files write =>
    exact ⟨pairOf_writeFile write (by decide) (by decide), Or.inl ⟨rfl, writeFile_ok write⟩⟩
  | certTmpFailed _ _ fs e message files write =>
    refine ⟨?_, Or.inr ⟨_, rfl⟩⟩
    rw [dropServer_files]
    exact pairOf_writeFile write (by decide) (by decide)

theorem writingKeyTmp_step {certPem keyPem : String}
    (hp : pc.phase = .writingKeyTmp certPem keyPem) (h : step call w pc r = some (w', pc')) :
    pairOf w'.files = pairOf w.files ∧ w'.files .certTmp = w.files .certTmp ∧
    ((pc'.phase = .renamingCert certPem keyPem ∧ w'.files .keyTmp = some keyPem) ∨
      ∃ e, pc'.phase = .returning (.error e)) := by
  cases pc <;> cases hp
  cases step_cases h with
  | failed _ _ message orders => cases orders
  | keyTmpWritten _ _ fs files write =>
    exact ⟨pairOf_writeFile write (by decide) (by decide), writeFile_other write (by decide),
      Or.inl ⟨rfl, writeFile_ok write⟩⟩
  | keyTmpFailed _ _ fs e message files write =>
    rw [dropServer_files]
    exact ⟨pairOf_writeFile write (by decide) (by decide), writeFile_other write (by decide),
      Or.inr ⟨_, rfl⟩⟩

theorem renamingCert_step {certPem keyPem : String}
    (hp : pc.phase = .renamingCert certPem keyPem) (h : step call w pc r = some (w', pc')) :
    (pc'.phase = .renamingKey certPem keyPem ∧ w'.files .cert = w.files .certTmp ∧
      w'.files .key = w.files .key ∧ w'.files .keyTmp = w.files .keyTmp) ∨
    (w'.files = w.files ∧ ∃ e, pc'.phase = .returning (.error e)) := by
  cases pc <;> cases hp
  cases step_cases h with
  | failed _ _ message orders => cases orders
  | certRenamed _ _ fs files rename =>
    obtain ⟨content, hc, rfl⟩ := renameFile_ok rename
    exact Or.inl ⟨rfl, by simp [hc], by simp, by simp⟩
  | certKept _ _ fs e message files rename =>
    refine Or.inr ⟨?_, _, rfl⟩
    rw [dropServer_files]
    exact (renameFile_error rename).1

theorem renamingKey_step {certPem keyPem : String}
    (hp : pc.phase = .renamingKey certPem keyPem) (h : step call w pc r = some (w', pc')) :
    (r = .fs .ok ∧ pc'.phase = .writingIssuedAt certPem keyPem ∧
      w'.files .key = w.files .keyTmp ∧ w'.files .cert = w.files .cert) ∨
    ((∃ e, r = .fs (.failed e)) ∧ w'.files = w.files ∧ ∃ e, pc'.phase = .returning (.error e)) := by
  cases pc <;> cases hp
  cases step_cases h with
  | failed _ _ message orders => cases orders
  | keyRenamed _ _ fs files rename =>
    obtain ⟨content, hc, rfl⟩ := renameFile_ok rename
    cases fs with
    | ok => exact Or.inl ⟨rfl, rfl, by simp [hc], by simp⟩
    | failed e => cases rename
    | torn n e => cases rename
  | keyKept _ _ fs e message files rename =>
    obtain ⟨hf, rfl⟩ := renameFile_error rename
    refine Or.inr ⟨⟨e, rfl⟩, ?_, _, rfl⟩
    rw [dropServer_files]
    exact hf

theorem writingIssuedAt_step {certPem keyPem : String}
    (hp : pc.phase = .writingIssuedAt certPem keyPem) (h : step call w pc r = some (w', pc')) :
    pairOf w'.files = pairOf w.files ∧ ∃ fs, r = .fs fs ∧
    ((pc'.phase = .returning (.ok (certPem, keyPem)) ∧
        (call.variant = .provisionWithStore → fs = .ok)) ∨
      (call.variant = .provisionWithStore ∧ fs ≠ .ok ∧
        ∃ e, pc'.phase = .returning (.error e))) := by
  cases pc <;> cases hp
  cases step_cases h with
  | failed _ _ message orders => cases orders
  | issuedAtWritten _ _ fs res files write variant =>
    refine ⟨pairOf_writeFile write (by decide) (by decide), fs, rfl, Or.inl ⟨rfl, fun hv => ?_⟩⟩
    obtain rfl := variant hv
    cases fs with
    | ok => rfl
    | failed e => cases write
    | torn n e => simp [writeFile] at write
  | issuedAtFailed _ _ fs e message files write variant =>
    rw [dropServer_files]
    refine ⟨pairOf_writeFile write (by decide) (by decide), fs, rfl, Or.inr ⟨variant, ?_, _, rfl⟩⟩
    rintro rfl
    cases write

theorem returning_step {result : Except ProxyError Issued} (hp : pc.phase = .returning result)
    (h : step call w pc r = some (w', pc')) :
    pairOf w'.files = pairOf w.files ∧ pc'.phase = .returning result := by
  cases step_cases h with
  | failed _ _ message orders => cases pc <;> cases orders <;> cases hp
  | gaveUp e fs files remove =>
    cases hp
    exact ⟨pairOf_removeFile remove (by decide) (by decide), rfl⟩
  | succeeded issued fs files remove =>
    cases hp
    exact ⟨pairOf_removeFile remove (by decide) (by decide), finish_phase call _⟩
  | certTmpRemoved result fs files remove =>
    cases hp
    exact ⟨pairOf_removeFile remove (by decide) (by decide), rfl⟩
  | keyTmpRemoved result fs files remove =>
    cases hp
    exact ⟨pairOf_removeFile remove (by decide) (by decide), finish_phase call _⟩
  | storeCleared result =>
    cases hp
    exact ⟨rfl, rfl⟩
  | _ => cases hp

theorem done_files {result : Except ProxyError Issued}
    (h : step call w pc r = some (w', .done result)) {f : CacheFile} (hl : f ≠ .renewing)
    (hk : f ≠ .keyTmp) : w'.files f = w.files f := by
  generalize ho : (w', Pc.done result) = o at h
  cases step_cases h with
  | noDir e => cases ho; rfl
  | locked fs found => cases ho; rfl
  | noLock fs e files write => cases ho; exact writeFile_other write hl
  | succeeded issued fs files remove => rw [(Prod.mk.inj ho).1]; exact removeFile_other remove hl
  | keyTmpRemoved result fs files remove =>
    rw [(Prod.mk.inj ho).1]
    exact removeFile_other remove hk
  | storeCleared result => cases ho; rfl
  | _ => cases ho

end Stages

end AcmeProvision
