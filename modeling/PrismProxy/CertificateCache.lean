import Mathlib.Algebra.Group.Nat.Defs
import Mathlib.Logic.Function.Basic
import Mathlib.Data.List.Basic

/-! # The certificate cache directory

The files provisioning works with, by name, and the file-system calls it makes on them. A
rename is atomic; a write can fail before it touches the file or after a proper prefix. -/
namespace CertificateCache

inductive CacheFile where
  | cert
  | key
  | issuedAt
  | renewing
  | certTmp
  | keyTmp
  deriving DecidableEq, Repr

def CacheFile.fileName : CacheFile → String
  | .cert => "cert.pem"
  | .key => "key.pem"
  | .issuedAt => "issued_at"
  | .renewing => ".renewing"
  | .certTmp => "cert.pem.tmp"
  | .keyTmp => "key.pem.tmp"

abbrev CacheDir := CacheFile → Option String

/-- How a file-system call ends. A torn write leaves the first `n` characters. -/
inductive FsReply where
  | ok
  | failed (e : String)
  | torn (n : ℕ) (e : String)
  deriving DecidableEq, Repr

/-- `fs::write`. -/
def writeFile (files : CacheDir) (f : CacheFile) (content : String) :
    FsReply → Option (Except String Unit × CacheDir)
  | .ok => some (.ok (), Function.update files f (some content))
  | .failed e => some (.error e, files)
  | .torn n e =>
    if n < content.toList.length then
      some (.error e, Function.update files f (some (String.ofList (content.toList.take n))))
    else none

/-- `fs::rename`, atomic. It cannot succeed without its source. -/
def renameFile (files : CacheDir) (src dst : CacheFile) :
    FsReply → Option (Except String Unit × CacheDir)
  | .ok => (files src).map fun content =>
      (.ok (), Function.update (Function.update files src none) dst (some content))
  | .failed e => some (.error e, files)
  | .torn _ _ => none

/-- `fs::remove_file` with its result dropped. -/
def removeFile (files : CacheDir) (f : CacheFile) : FsReply → Option CacheDir
  | .ok => some (Function.update files f none)
  | .failed _ => some files
  | .torn _ _ => none

/-- `Path::exists`, which also answers no when the call fails. -/
def fileExists (files : CacheDir) (f : CacheFile) : FsReply → Option Bool
  | .ok => some (files f).isSome
  | .failed _ => some false
  | .torn _ _ => none

/-- `fs::read_to_string`. -/
def readFile (files : CacheDir) (f : CacheFile) : FsReply → Option (Except String String)
  | .ok => (files f).map .ok
  | .failed e => some (.error e)
  | .torn _ _ => none

/-- The certificate and the key as they are on disk. -/
def pairOf (files : CacheDir) : Option String × Option String := (files .cert, files .key)

theorem writeFile_other {files files' : CacheDir} {f g : CacheFile} {content : String}
    {reply : FsReply} {res : Except String Unit}
    (h : writeFile files f content reply = some (res, files')) (hg : g ≠ f) :
    files' g = files g := by
  cases reply with
  | ok => obtain ⟨_, rfl⟩ := Prod.mk.inj (Option.some.inj h); simp [hg]
  | failed e => obtain ⟨_, rfl⟩ := Prod.mk.inj (Option.some.inj h); rfl
  | torn n e =>
    simp only [writeFile, Option.ite_none_right_eq_some, Option.some.injEq, Prod.mk.injEq] at h
    obtain ⟨_, _, rfl⟩ := h
    simp [hg]

theorem writeFile_ok {files files' : CacheDir} {f : CacheFile} {content : String}
    {reply : FsReply} (h : writeFile files f content reply = some (.ok (), files')) :
    files' f = some content := by
  cases reply with
  | ok => obtain ⟨_, rfl⟩ := Prod.mk.inj (Option.some.inj h); simp
  | failed e => simp [writeFile] at h
  | torn n e => simp [writeFile] at h

theorem renameFile_ok {files files' : CacheDir} {src dst : CacheFile} {reply : FsReply}
    (h : renameFile files src dst reply = some (.ok (), files')) :
    ∃ content, files src = some content ∧
      files' = Function.update (Function.update files src none) dst (some content) := by
  cases reply with
  | ok =>
    obtain ⟨content, hc, ho⟩ := Option.map_eq_some_iff.mp h
    exact ⟨content, hc, (Prod.mk.inj ho).2.symm⟩
  | failed e => simp [renameFile] at h
  | torn n e => simp [renameFile] at h

theorem renameFile_error {files files' : CacheDir} {src dst : CacheFile} {reply : FsReply}
    {e : String} (h : renameFile files src dst reply = some (.error e, files')) :
    files' = files ∧ reply = .failed e := by
  cases reply with
  | ok => simp [renameFile] at h
  | failed m => simp [renameFile] at h; exact ⟨h.2.symm, by rw [h.1]⟩
  | torn n m => simp [renameFile] at h

theorem removeFile_other {files files' : CacheDir} {f g : CacheFile} {reply : FsReply}
    (h : removeFile files f reply = some files') (hg : g ≠ f) : files' g = files g := by
  cases reply with
  | ok => obtain rfl := Option.some.inj h; simp [hg]
  | failed e => obtain rfl := Option.some.inj h; rfl
  | torn n e => simp [removeFile] at h

theorem pairOf_of_agree {files files' : CacheDir} (h : ∀ f, f ≠ .renewing → files' f = files f) :
    pairOf files' = pairOf files := by
  simp only [pairOf, h .cert (by decide), h .key (by decide)]

theorem pairOf_writeFile {files files' : CacheDir} {f : CacheFile} {content : String}
    {reply : FsReply} {res : Except String Unit}
    (h : writeFile files f content reply = some (res, files')) (hc : f ≠ .cert)
    (hk : f ≠ .key) : pairOf files' = pairOf files := by
  simp only [pairOf, writeFile_other h hc.symm, writeFile_other h hk.symm]

theorem pairOf_removeFile {files files' : CacheDir} {f : CacheFile} {reply : FsReply}
    (h : removeFile files f reply = some files') (hc : f ≠ .cert) (hk : f ≠ .key) :
    pairOf files' = pairOf files := by
  simp only [pairOf, removeFile_other h hc.symm, removeFile_other h hk.symm]

/-- `char::is_whitespace`: Unicode's White_Space. -/
def isWhitespace (c : Char) : Bool :=
  let n := c.toNat
  (9 ≤ n && n ≤ 13) || n == 0x20 || n == 0x85 || n == 0xA0 || n == 0x1680 ||
    (0x2000 ≤ n && n ≤ 0x200A) || n == 0x2028 || n == 0x2029 || n == 0x202F || n == 0x205F ||
    n == 0x3000

/-- `str::trim().parse::<u64>()`: an optional sign, at least one digit, no overflow. -/
def parseU64 (s : String) : Option ℕ :=
  let trimmed := (s.toList.dropWhile isWhitespace).reverse.dropWhile isWhitespace |>.reverse
  let digits := match trimmed with | '+' :: ds => ds | ds => ds
  if digits = [] ∨ ¬ digits.all Char.isDigit then none
  else
    let n := digits.foldl (fun n c => n * 10 + (c.toNat - 48)) 0
    if n < 2 ^ 64 then some n else none

theorem dropWhile_digits {s : List Char} (h : ∀ c ∈ s, c.isDigit = true) :
    s.dropWhile isWhitespace = s := by
  cases s with
  | nil => rfl
  | cons c s =>
    have hdigit := h c List.mem_cons_self
    have hbounds : 48 ≤ c.toNat ∧ c.toNat ≤ 57 := by
      simpa [Char.isDigit, UInt32.le_iff_toNat_le] using hdigit
    have hno : ¬ isWhitespace c = true := by
      simp only [isWhitespace, Bool.or_eq_true, Bool.and_eq_true, decide_eq_true_eq, beq_iff_eq]
      omega
    rw [List.dropWhile_cons_of_neg hno]

theorem parseU64_toString {n : ℕ} (h : n < 2 ^ 64) : parseU64 (toString n) = some n := by
  have hdigits : ∀ c ∈ Nat.toDigits 10 n, c.isDigit = true := fun c hc =>
    Nat.isDigit_of_mem_toDigits (by decide) (by decide) hc
  have hvalue : (Nat.toDigits 10 n).foldl (fun n c => n * 10 + (c.toNat - 48)) 0 = n := by
    have hof : Nat.ofDigitChars 10 (Nat.toDigits 10 n) 0 = n := Nat.ofDigitChars_ten_toDigits
    rw [Nat.ofDigitChars_eq_foldl] at hof
    simp only [Nat.mul_comm 10] at hof
    exact hof
  unfold parseU64
  rw [show (toString n).toList = Nat.toDigits 10 n from Nat.toList_repr,
    dropWhile_digits hdigits, dropWhile_digits (by simpa using hdigits), List.reverse_reverse]
  simp only
  split
  · rename_i ds hplus
    exact absurd (hdigits '+' (by rw [hplus]; exact List.mem_cons_self)) (by decide)
  · rw [hvalue, if_neg, if_pos h]
    rintro (hnil | hnot)
    · exact Nat.toDigits_ne_nil hnil
    · exact hnot (List.all_eq_true.mpr hdigits)

/-- 60 days, in seconds. -/
def renewalAge : ℕ := 5184000

/-- `cert_needs_renewal` over what its two calls answered; the sum is a wrapping `u64`. -/
def certNeedsRenewal (certExists : Bool) (issuedAt : Option String) (now : ℕ) : Bool :=
  if !certExists then true
  else
    let issued := (issuedAt.bind parseU64).getD 0
    decide ((issued + renewalAge) % 2 ^ 64 < now)

def dirNeedsRenewal (files : CacheDir) (now : ℕ) : Bool :=
  certNeedsRenewal (files .cert).isSome (files .issuedAt) now

theorem certNeedsRenewal_mono {certExists : Bool} {issuedAt : Option String} {now later : ℕ}
    (hle : now ≤ later) (h : certNeedsRenewal certExists issuedAt now = true) :
    certNeedsRenewal certExists issuedAt later = true := by
  unfold certNeedsRenewal at h ⊢
  by_cases hc : certExists = true
  · simp only [hc, Bool.not_true, Bool.false_eq_true, if_false, decide_eq_true_eq] at h ⊢
    omega
  · simp [hc]

theorem dirNeedsRenewal_congr {files files' : CacheDir} (now : ℕ) (hc : files' .cert = files .cert)
    (hi : files' .issuedAt = files .issuedAt) :
    dirNeedsRenewal files' now = dirNeedsRenewal files now := by
  rw [dirNeedsRenewal, dirNeedsRenewal, hc, hi]

example : parseU64 " 1700000000\n" = some 1700000000 := by decide
example : parseU64 "" = none := by decide

end CertificateCache
