import Mathlib.Logic.Function.Basic
import PqSuite.Client.Protect

/-!
# The private keys on disk (`key_store.cpp`)

Two files hold the private keys, each plain or under a passphrase. A call that changes the protection
rewrites them one after the other; a crash leaves the files as they were after some of the writes.
`crash_recoverable_iff` says for which calls the keys can be obtained again after every crash.
-/

namespace PqSuite

variable {new : Bytes}

inductive KeyFile where
  | kem
  | dsa
  deriving DecidableEq

def KeyFile.name : KeyFile → String
  | .kem => "private_kem"
  | .dsa => "private_dsa"

def KeyFile.label (k : KeyFile) : Bytes := ascii k.name

/-- The contents of the files; `none` where there is no regular file. -/
abbrev KeyFolder := KeyFile → Option Bytes

abbrev PrivateKeys := KeyFile → Bytes

def maxKeyFileSize : ℕ := 64 * 1024
def minPassphraseBytes : ℕ := 8

/-- What is read of a file: nothing if it is missing or too large. -/
def readFileBytes : Option Bytes → Bytes
  | none => []
  | some data => if data.length > maxKeyFileSize then [] else data

/-- The folder and what a running client keeps decrypted in memory. -/
structure KeyStore where
  keysDir : String
  folder : KeyFolder
  cache : PrivateKeys
  kdfLog2N : UInt8

/-- What a call does: the files it writes, in order, and what it ends with if it is not interrupted. -/
structure CallEffect where
  writes : List (KeyFile × Bytes)
  cache : PrivateKeys
  result : Except String Bool

/-- The keys that were read, and whether any of them was protected or plain. -/
structure ReadKeys where
  keys : PrivateKeys
  anyProtected : Bool
  anyPlain : Bool

def SecretCrypto.secretKeySize (C : SecretCrypto) : KeyFile → ℕ
  | .kem => C.kemSecretKeySize
  | .dsa => C.sigSecretKeySize

def isAcceptablePassphrase (passphrase : Bytes) : Bool := passphrase.length ≥ minPassphraseBytes

namespace KeyStore

/-- Raw bytes for a plain key; the copy in memory for a protected one (empty while locked). -/
def loadPrivate (ks : KeyStore) (k : KeyFile) : Bytes :=
  let raw := readFileBytes (ks.folder k)
  if raw = [] ∨ isProtectedBlob raw = false then raw else ks.cache k

def privateKeysLocked (ks : KeyStore) : Bool :=
  (isProtectedBlob (readFileBytes (ks.folder .kem)) && ks.cache .kem = []) ||
    (isProtectedBlob (readFileBytes (ks.folder .dsa)) && ks.cache .dsa = [])

end KeyStore

section

variable (C : SecretCrypto)

/-- One turn of the loop of `read_private_keys`: the key and whether its file was protected, or `none`
for a wrong passphrase. -/
def readPrivateKey (ks : KeyStore) (passphrase : Bytes) (k : KeyFile) :
    Except String (Option (Bytes × Bool)) :=
  let raw := readFileBytes (ks.folder k)
  let path := ks.keysDir ++ "/" ++ k.name
  if raw = [] then .error ("Cannot read " ++ path)
  else if isProtectedBlob raw then
    match C.unprotectSecret raw passphrase k.label with
    | .error e => .error e
    | .ok none => .ok none
    | .ok (some plain) =>
      if plain.length ≠ C.secretKeySize k then
        .error (path ++ " is corrupt or from an incompatible version")
      else .ok (some (plain, true))
  else if raw.length ≠ C.secretKeySize k then
    .error (path ++ " is corrupt or from an incompatible version")
  else .ok (some (raw, false))

def readPrivateKeys (ks : KeyStore) (passphrase : Bytes) : Except String (Option ReadKeys) :=
  match readPrivateKey C ks passphrase .kem with
  | .error e => .error e
  | .ok none => .ok none
  | .ok (some (kem, kemProtected)) =>
    match readPrivateKey C ks passphrase .dsa with
    | .error e => .error e
    | .ok none => .ok none
    | .ok (some (dsa, dsaProtected)) =>
      .ok (some ⟨fun | .kem => kem | .dsa => dsa,
        kemProtected || dsaProtected, !kemProtected || !dsaProtected⟩)

/-- Both files are protected anew, the encryption key first. -/
def writeProtected (ks : KeyStore) (keys : PrivateKeys) (passphrase : Bytes)
    (rnd : KeyFile → Randoms) : Except String (List (KeyFile × Bytes)) :=
  match C.protectSecret (keys .kem) passphrase KeyFile.kem.label ks.kdfLog2N (rnd .kem) with
  | .error e => .error e
  | .ok kemBlob =>
    match C.protectSecret (keys .dsa) passphrase KeyFile.dsa.label ks.kdfLog2N (rnd .dsa) with
    | .error e => .error e
    | .ok dsaBlob => .ok [(.kem, kemBlob), (.dsa, dsaBlob)]

/-- Also finishes a protect operation that was interrupted between the two files. -/
def unlock (ks : KeyStore) (passphrase : Bytes) (rnd : KeyFile → Randoms) : CallEffect :=
  if passphrase = [] then ⟨[], ks.cache, .ok false⟩
  else
    match readPrivateKeys C ks passphrase with
    | .error e => ⟨[], ks.cache, .error e⟩
    | .ok none => ⟨[], ks.cache, .ok false⟩
    | .ok (some r) =>
      if r.anyProtected && r.anyPlain then
        match writeProtected C ks r.keys passphrase rnd with
        | .error e => ⟨[], r.keys, .error e⟩
        | .ok writes => ⟨writes, r.keys, .ok true⟩
      else ⟨[], r.keys, .ok true⟩

/-- The keys in use do not have their sizes, so they are locked. -/
def keysUnusable (keys : PrivateKeys) : Bool :=
  (keys .kem).length ≠ C.kemSecretKeySize ∨ (keys .dsa).length ≠ C.sigSecretKeySize

def setPassphrase (ks : KeyStore) (passphrase : Bytes) (rnd : KeyFile → Randoms) : CallEffect :=
  if !isAcceptablePassphrase passphrase then
    ⟨[], ks.cache, .error "The passphrase is too short (use at least 8 characters)"⟩
  else if keysUnusable C ks.loadPrivate then
    ⟨[], ks.cache, .error "Your keys are locked. Unlock them first"⟩
  else
    match writeProtected C ks ks.loadPrivate passphrase rnd with
    | .error e => ⟨[], ks.cache, .error e⟩
    | .ok writes => ⟨writes, ks.loadPrivate, .ok true⟩

def removePassphrase (ks : KeyStore) : CallEffect :=
  if keysUnusable C ks.loadPrivate then
    ⟨[], ks.cache, .error "Your keys are locked. Unlock them first"⟩
  else
    ⟨[(.kem, ks.loadPrivate .kem), (.dsa, ks.loadPrivate .dsa)], fun _ => [], .ok true⟩

inductive KeyCall where
  | setPassphrase (passphrase : Bytes)
  | removePassphrase
  | unlock (passphrase : Bytes)

def KeyCall.effect (ks : KeyStore) (rnd : KeyFile → Randoms) : KeyCall → CallEffect
  | .setPassphrase passphrase => PqSuite.setPassphrase C ks passphrase rnd
  | .removePassphrase => PqSuite.removePassphrase C ks
  | .unlock passphrase => PqSuite.unlock C ks passphrase rnd

def KeyCall.passphrase : KeyCall → Option Bytes
  | .setPassphrase passphrase => some passphrase
  | .removePassphrase => none
  | .unlock passphrase => some passphrase

end

/-! ## Crashes -/

def KeyFolder.write (folder : KeyFolder) (w : KeyFile × Bytes) : KeyFolder :=
  Function.update folder w.1 (some w.2)

/-- The client started again after a crash that came when `n` of the writes were done. -/
def KeyStore.crash (ks : KeyStore) (writes : List (KeyFile × Bytes)) (n : ℕ) : KeyStore :=
  { ks with folder := (writes.take n).foldl KeyFolder.write ks.folder, cache := fun _ => [] }

/-- The private keys can be obtained, with the given passphrase or without one. -/
def Obtains (C : SecretCrypto) (ks : KeyStore) (keys : PrivateKeys) : Option Bytes → Prop
  | none => ∀ k, ({ ks with cache := fun _ => [] } : KeyStore).loadPrivate k = keys k ∧
      (keys k).length = C.secretKeySize k
  | some passphrase => passphrase ≠ [] ∧
      ∃ r, readPrivateKeys C ks passphrase = .ok (some r) ∧ r.keys = keys

/-- The keys before a call: what is in force obtains them, and what is kept in memory is theirs. -/
structure InForce (C : SecretCrypto) (ks : KeyStore) (keys : PrivateKeys) (p : Option Bytes) :
    Prop where
  obtains : Obtains C ks keys p
  cache : ∀ k, ks.cache k = [] ∨ ks.cache k = keys k

/-- The keys can be obtained without a passphrase, with the one that was in force or with the one the
call was given. -/
def Recoverable (C : SecretCrypto) (ks : KeyStore) (keys : PrivateKeys) (p : Option Bytes)
    (call : KeyCall) : Prop :=
  Obtains C ks keys none ∨ Obtains C ks keys p ∨
    ∃ new, call.passphrase = some new ∧ Obtains C ks keys (some new)

/-- The calls that can be interrupted anywhere. A new passphrase is safe if it is refused, or if
`private_dsa` is plain or already under it; taking the passphrase off is safe if neither key looks
like a protected one. -/
def CrashSafe (C : SecretCrypto) (ks : KeyStore) (keys : PrivateKeys) : KeyCall → Prop
  | .setPassphrase new =>
    isAcceptablePassphrase new = false ∨ ks.privateKeysLocked = true ∨
      (ks.kdfLog2N < minScryptLog2N ∨ ks.kdfLog2N > maxScryptLog2N) ∨
      isProtectedBlob (readFileBytes (ks.folder .dsa)) = false ∨
      C.unprotectSecret (readFileBytes (ks.folder .dsa)) new KeyFile.dsa.label
        = .ok (some (keys .dsa))
  | .removePassphrase => ks.privateKeysLocked = true ∨ ∀ k, isProtectedBlob (keys k) = false
  | .unlock _ => True

/-! ## What one file gives -/

/-- The key that one file gives, with a passphrase or without. -/
def FileGives (C : SecretCrypto) (file : Option Bytes) (p : Option Bytes) (k : KeyFile)
    (x : Bytes) : Prop :=
  readFileBytes file ≠ [] ∧ x.length = C.secretKeySize k ∧
    if isProtectedBlob (readFileBytes file) then
      ∃ q, p = some q ∧ C.unprotectSecret (readFileBytes file) q k.label = .ok (some x)
    else readFileBytes file = x

variable {C : SecretCrypto} {ks : KeyStore} {keys : PrivateKeys} {p : Option Bytes}
  {file : Option Bytes} {k : KeyFile} {x q : Bytes}

theorem secretKeySize_pos (C : SecretCrypto) (k : KeyFile) : 0 < C.secretKeySize k := by
  cases k
  · exact C.kem_size.1
  · exact C.sig_size.1

theorem secretKeySize_le (C : SecretCrypto) (k : KeyFile) : C.secretKeySize k ≤ 32 * 1024 := by
  cases k
  · exact C.kem_size.2
  · exact C.sig_size.2

theorem readPrivateKey_eq_some {b : Bool} (h : readPrivateKey C ks q k = .ok (some (x, b))) :
    FileGives C (ks.folder k) (some q) k x ∧ b = isProtectedBlob (readFileBytes (ks.folder k)) := by
  unfold readPrivateKey at h
  simp only at h
  split_ifs at h with hraw hprot hlen
  · split at h
    · simp at h
    · simp at h
    · rename_i plain hplain
      split_ifs at h with hsize
      obtain ⟨rfl, rfl⟩ := Prod.mk.inj (Option.some.inj (Except.ok.inj h))
      exact ⟨⟨hraw, not_not.1 hsize, by rw [if_pos hprot]; exact ⟨q, rfl, hplain⟩⟩, hprot.symm⟩
  · obtain ⟨rfl, rfl⟩ := Prod.mk.inj (Option.some.inj (Except.ok.inj h))
    exact ⟨⟨hraw, not_not.1 hlen, by rw [if_neg hprot]⟩, by simpa using hprot⟩

theorem readPrivateKey_of_gives (h : FileGives C (ks.folder k) (some q) k x) :
    readPrivateKey C ks q k =
      .ok (some (x, isProtectedBlob (readFileBytes (ks.folder k)))) := by
  obtain ⟨hraw, hsize, hx⟩ := h
  unfold readPrivateKey
  by_cases hprot : isProtectedBlob (readFileBytes (ks.folder k)) = true
  · rw [if_pos hprot] at hx
    obtain ⟨q', hq, hx⟩ := hx
    obtain rfl := Option.some.inj hq
    simp [hraw, hprot, hx, hsize]
  · rw [if_neg hprot] at hx
    rw [hx] at hraw hprot ⊢
    simp [hraw, hprot, hsize]

theorem FileGives.plain_iff :
    FileGives C file none k x ↔ x.length = C.secretKeySize k ∧ readFileBytes file = x ∧
      isProtectedBlob x = false := by
  constructor
  · rintro ⟨-, hsize, hx⟩
    split_ifs at hx with hprot
    · obtain ⟨q, hq, -⟩ := hx
      simp at hq
    · exact ⟨hsize, hx, by simpa [hx] using hprot⟩
  · rintro ⟨hsize, rfl, hprot⟩
    refine ⟨?_, hsize, by simp [hprot]⟩
    intro hnil
    have := secretKeySize_pos C k
    simp [hnil] at hsize
    omega

theorem obtains_iff :
    Obtains C ks keys p ↔ p ≠ some [] ∧ ∀ k, FileGives C (ks.folder k) p k (keys k) := by
  cases p with
  | none =>
    simp only [Obtains, ne_eq, reduceCtorEq, not_false_eq_true, true_and]
    refine forall_congr' fun k => ?_
    rw [FileGives.plain_iff]
    have hpos := secretKeySize_pos C k
    simp only [KeyStore.loadPrivate]
    constructor
    · rintro ⟨hload, hsize⟩
      split_ifs at hload with hc
      · refine ⟨hsize, hload, ?_⟩
        rcases hc with hc | hc
        · rw [← hload, hc] at hsize
          simp at hsize
          omega
        · rwa [hload] at hc
      · rw [← hload] at hsize
        simp at hsize
        omega
    · rintro ⟨hsize, hread, hprot⟩
      rw [hread, if_pos (Or.inr hprot)]
      exact ⟨rfl, hsize⟩
  | some q =>
    simp only [Obtains, ne_eq, Option.some.injEq]
    refine and_congr_right fun _ => ?_
    constructor
    · rintro ⟨r, hr, rfl⟩
      unfold readPrivateKeys at hr
      split at hr
      · simp at hr
      · simp at hr
      rename_i kem kp hkem
      split at hr
      · simp at hr
      · simp at hr
      rename_i dsa dp hdsa
      obtain rfl := Option.some.inj (Except.ok.inj hr)
      intro k
      cases k
      · exact (readPrivateKey_eq_some hkem).1
      · exact (readPrivateKey_eq_some hdsa).1
    · intro h
      refine ⟨⟨keys, isProtectedBlob (readFileBytes (ks.folder .kem)) ||
        isProtectedBlob (readFileBytes (ks.folder .dsa)),
        !isProtectedBlob (readFileBytes (ks.folder .kem)) ||
          !isProtectedBlob (readFileBytes (ks.folder .dsa))⟩, ?_, rfl⟩
      simp only [readPrivateKeys, readPrivateKey_of_gives (h .kem),
        readPrivateKey_of_gives (h .dsa), Except.ok.injEq, Option.some.injEq, ReadKeys.mk.injEq,
        and_true]
      funext k
      cases k <;> rfl

theorem readFileBytes_of_length_le {data : Bytes} (h : data.length ≤ maxKeyFileSize) :
    readFileBytes (some data) = data := by
  simp [readFileBytes, h]

theorem FileGives.of_plain (hsize : x.length = C.secretKeySize k)
    (hprot : isProtectedBlob x = false) : FileGives C (some x) p k x := by
  have hpos := secretKeySize_pos C k
  have hle := secretKeySize_le C k
  have hread : readFileBytes (some x) = x :=
    readFileBytes_of_length_le (by unfold maxKeyFileSize; omega)
  refine ⟨?_, hsize, by simp [hread, hprot]⟩
  rw [hread]
  rintro rfl
  simp at hsize
  omega

/-- A file that is not protected gives the same key under another passphrase. -/
theorem FileGives.mono (h : FileGives C file p k x)
    (hprot : isProtectedBlob (readFileBytes file) = false) (p' : Option Bytes) :
    FileGives C file p' k x := by
  obtain ⟨hraw, hsize, hx⟩ := h
  exact ⟨hraw, hsize, by simpa [hprot] using hx⟩

theorem FileGives.of_protectSecret {rnd : Randoms} {log2N : UInt8} {blob : Bytes}
    (hsize : x.length = C.secretKeySize k)
    (h : C.protectSecret x q k.label log2N rnd = .ok blob) :
    readFileBytes (some blob) = blob ∧ FileGives C (some blob) (some q) k x := by
  have hle := secretKeySize_le C k
  have hlen := length_protectSecret h
  have hread : readFileBytes (some blob) = blob :=
    readFileBytes_of_length_le (by unfold maxKeyFileSize; unfold protectedHeaderSize at hlen; omega)
  refine ⟨hread, ?_, hsize, ?_⟩
  · rw [hread]
    rintro rfl
    simp only [List.length_nil, protectedHeaderSize] at hlen
    omega
  · rw [hread, if_pos (isProtectedBlob_protectSecret h)]
    exact ⟨q, rfl, unprotectSecret_protectSecret h⟩

/-- A plain key that starts like a protected one is never read back from its file. -/
theorem FileGives.not_of_magic (hprot : isProtectedBlob x = true) : ¬FileGives C (some x) p k x := by
  rintro ⟨-, hsize, hx⟩
  have hle := secretKeySize_le C k
  have hread : readFileBytes (some x) = x :=
    readFileBytes_of_length_le (by unfold maxKeyFileSize; omega)
  rw [hread, if_pos hprot] at hx
  obtain ⟨q, -, hx⟩ := hx
  have hlen := length_of_unprotectSecret hx
  unfold protectedHeaderSize at hlen
  omega

/-! ## The keys in memory -/

theorem InForce.gives (h : InForce C ks keys p) (k : KeyFile) :
    FileGives C (ks.folder k) p k (keys k) := (obtains_iff.1 h.obtains).2 k

theorem InForce.length_key (h : InForce C ks keys p) (k : KeyFile) :
    (keys k).length = C.secretKeySize k := (h.gives k).2.1

/-- What `load_private` returns: the key, or nothing for a protected file that is locked. -/
theorem InForce.loadPrivate_eq (h : InForce C ks keys p) (k : KeyFile) :
    ks.loadPrivate k =
      if isProtectedBlob (readFileBytes (ks.folder k)) && ks.cache k = [] then [] else keys k := by
  obtain ⟨hraw, -, hx⟩ := h.gives k
  unfold KeyStore.loadPrivate
  by_cases hprot : isProtectedBlob (readFileBytes (ks.folder k)) = true
  · rcases h.cache k with hc | hc
    · simp [hraw, hprot, hc]
    · by_cases hnil : keys k = [] <;> simp [hraw, hprot, hc, hnil]
  · rw [if_neg hprot] at hx
    rw [hx] at hprot ⊢
    simp [hprot]

theorem InForce.loadPrivate_of_unlocked (h : InForce C ks keys p)
    (hlock : ks.privateKeysLocked = false) : ks.loadPrivate = keys := by
  unfold KeyStore.privateKeysLocked at hlock
  rw [Bool.or_eq_false_iff] at hlock
  funext k
  rw [h.loadPrivate_eq k]
  cases k
  · simp [hlock.1]
  · simp [hlock.2]

/-- The calls refuse exactly while a key is locked. -/
theorem InForce.keysUnusable_iff (h : InForce C ks keys p) :
    keysUnusable C ks.loadPrivate = ks.privateKeysLocked := by
  cases hlock : ks.privateKeysLocked with
  | false =>
    rw [h.loadPrivate_of_unlocked hlock]
    have hkem := h.length_key .kem
    have hdsa := h.length_key .dsa
    simp only [SecretCrypto.secretKeySize] at hkem hdsa
    simp [keysUnusable, hkem, hdsa]
  | true =>
    have hkem := secretKeySize_pos C .kem
    have hdsa := secretKeySize_pos C .dsa
    simp only [SecretCrypto.secretKeySize] at hkem hdsa
    unfold KeyStore.privateKeysLocked at hlock
    rw [Bool.or_eq_true] at hlock
    simp only [keysUnusable, decide_eq_true_eq]
    rcases hlock with hl | hl
    · left
      rw [h.loadPrivate_eq .kem, if_pos hl]
      simp only [List.length_nil]
      omega
    · right
      rw [h.loadPrivate_eq .dsa, if_pos hl]
      simp only [List.length_nil]
      omega

/-! ## Crashes between the writes -/

variable {writes : List (KeyFile × Bytes)} {rnd : KeyFile → Randoms} {call : KeyCall} {a b : Bytes}

theorem obtains_crash_iff {n : ℕ} :
    Obtains C (ks.crash writes n) keys p ↔ p ≠ some [] ∧
      ∀ k, FileGives C ((writes.take n).foldl KeyFolder.write ks.folder k) p k (keys k) := obtains_iff

theorem obtains_crash_zero : Obtains C (ks.crash writes 0) keys p ↔ Obtains C ks keys p := by
  rw [obtains_crash_iff, obtains_iff]
  rfl

theorem obtains_crash_nil {n : ℕ} : Obtains C (ks.crash [] n) keys p ↔ Obtains C ks keys p := by
  rw [obtains_crash_iff, obtains_iff, List.take_nil]
  rfl

theorem forall_keyFile {P : KeyFile → Prop} : (∀ k, P k) ↔ P .kem ∧ P .dsa :=
  ⟨fun h => ⟨h .kem, h .dsa⟩, fun h k => by cases k; exacts [h.1, h.2]⟩

/-- Between the two writes the first file is new and the second is as it was. -/
theorem obtains_crash_one :
    Obtains C (ks.crash [(.kem, a), (.dsa, b)] 1) keys p ↔ p ≠ some [] ∧
      FileGives C (some a) p .kem (keys .kem) ∧
      FileGives C (ks.folder .dsa) p .dsa (keys .dsa) := by
  rw [obtains_crash_iff, forall_keyFile]
  rfl

theorem obtains_crash_two {n : ℕ} :
    Obtains C (ks.crash [(.kem, a), (.dsa, b)] (n + 2)) keys p ↔ p ≠ some [] ∧
      FileGives C (some a) p .kem (keys .kem) ∧ FileGives C (some b) p .dsa (keys .dsa) := by
  rw [obtains_crash_iff, forall_keyFile, List.take_of_length_le (by simp)]
  rfl

theorem InForce.recoverable_nil (h : InForce C ks keys p) (n : ℕ) :
    Recoverable C (ks.crash [] n) keys p call := .inr (.inl (obtains_crash_nil.2 h.obtains))

theorem writeProtected_eq_ok (h : writeProtected C ks keys q rnd = .ok writes) :
    ∃ a b, writes = [(.kem, a), (.dsa, b)] ∧
      C.protectSecret (keys .kem) q KeyFile.kem.label ks.kdfLog2N (rnd .kem) = .ok a ∧
      C.protectSecret (keys .dsa) q KeyFile.dsa.label ks.kdfLog2N (rnd .dsa) = .ok b := by
  unfold writeProtected at h
  split at h
  · simp at h
  rename_i a ha
  split at h
  · simp at h
  rename_i b hb
  exact ⟨a, b, (Except.ok.inj h).symm, ha, hb⟩

/-- Protecting both files fails only if the passphrase is empty or the cost is out of range. -/
theorem writeProtected_error_iff :
    (∃ e, writeProtected C ks keys q rnd = .error e) ↔
      q = [] ∨ ks.kdfLog2N < minScryptLog2N ∨ ks.kdfLog2N > maxScryptLog2N := by
  unfold writeProtected SecretCrypto.protectSecret
  by_cases hq : q = []
  · simp [hq]
  · by_cases hn : ks.kdfLog2N < minScryptLog2N ∨ ks.kdfLog2N > maxScryptLog2N
    · simp [hq, hn]
    · simp only [hq, hn, if_false, or_self, reduceCtorEq, exists_false]

/-- While both files are put under a passphrase, the keys stay obtainable if that passphrase already
opens the second file. -/
theorem InForce.recoverable_writeProtected (h : InForce C ks keys p)
    (hw : writeProtected C ks keys q rnd = .ok writes) (hcall : call.passphrase = some q)
    (hdsa : FileGives C (ks.folder .dsa) (some q) .dsa (keys .dsa)) (n : ℕ) :
    Recoverable C (ks.crash writes n) keys p call := by
  obtain ⟨a, b, rfl, ha, hb⟩ := writeProtected_eq_ok hw
  have hq : (some q : Option Bytes) ≠ some [] := by
    simpa using (protectSecret_eq_ok ha).1
  obtain ⟨-, hkem'⟩ := FileGives.of_protectSecret (h.length_key .kem) ha
  obtain ⟨-, hdsa'⟩ := FileGives.of_protectSecret (h.length_key .dsa) hb
  match n with
  | 0 => exact .inr (.inl (obtains_crash_zero.2 h.obtains))
  | 1 => exact .inr (.inr ⟨q, hcall, obtains_crash_one.2 ⟨hq, hkem', hdsa⟩⟩)
  | n + 2 => exact .inr (.inr ⟨q, hcall, obtains_crash_two.2 ⟨hq, hkem', hdsa'⟩⟩)

/-! ## The three calls -/

/-- Whatever a file opens to is the key that was put into it. -/
def Authentic (C : SecretCrypto) (folder : KeyFolder) (keys : PrivateKeys) : Prop :=
  ∀ k q x, C.unprotectSecret (readFileBytes (folder k)) q k.label = .ok (some x) → x = keys k

/-- The passphrase in force does not open the key that the call protects under another one. -/
def RefusesOld (C : SecretCrypto) (ks : KeyStore) (keys : PrivateKeys) (p : Option Bytes)
    (rnd : KeyFile → Randoms) (new : Bytes) : Prop :=
  ∀ old blob, p = some old → old ≠ new →
    C.protectSecret (keys .kem) new KeyFile.kem.label ks.kdfLog2N (rnd .kem) = .ok blob →
    C.unprotectSecret blob old KeyFile.kem.label = .ok none

theorem isAcceptablePassphrase_ne_nil (h : isAcceptablePassphrase new = true) : new ≠ [] := by
  rintro rfl
  simp [isAcceptablePassphrase, minPassphraseBytes] at h

/-- A new passphrase is refused without a write, or puts both keys under it. -/
theorem InForce.setPassphrase_writes (h : InForce C ks keys p) (new : Bytes)
    (rnd : KeyFile → Randoms) :
    (isAcceptablePassphrase new = false ∨ ks.privateKeysLocked = true ∨
        (ks.kdfLog2N < minScryptLog2N ∨ ks.kdfLog2N > maxScryptLog2N)) ∧
      (setPassphrase C ks new rnd).writes = [] ∨
    isAcceptablePassphrase new = true ∧ ks.privateKeysLocked = false ∧
      writeProtected C ks keys new rnd = .ok (setPassphrase C ks new rnd).writes := by
  unfold setPassphrase
  rw [h.keysUnusable_iff]
  cases hacc : isAcceptablePassphrase new with
  | false => exact .inl ⟨.inl rfl, rfl⟩
  | true =>
    cases hlock : ks.privateKeysLocked with
    | true => exact .inl ⟨.inr (.inl rfl), rfl⟩
    | false =>
      simp only [Bool.not_true, Bool.false_eq_true, if_false, h.loadPrivate_of_unlocked hlock]
      split
      · rename_i e he
        have hcost := (writeProtected_error_iff (C := C)).1 ⟨e, he⟩
        exact .inl ⟨.inr (.inr (hcost.resolve_left (isAcceptablePassphrase_ne_nil hacc))), rfl⟩
      · rename_i writes hw
        exact .inr ⟨trivial, trivial, hw⟩

/-- After the first of the two writes, no passphrase opens both files unless the new one already
opened the second. -/
theorem InForce.not_recoverable_one (h : InForce C ks keys p) (hold : RefusesOld C ks keys p rnd new)
    (hw : writeProtected C ks keys new rnd = .ok writes)
    (hprot : isProtectedBlob (readFileBytes (ks.folder .dsa)) = true)
    (hnew : C.unprotectSecret (readFileBytes (ks.folder .dsa)) new KeyFile.dsa.label ≠
      .ok (some (keys .dsa))) : ¬Recoverable C (ks.crash writes 1) keys p (.setPassphrase new) := by
  obtain ⟨a, b, rfl, ha, -⟩ := writeProtected_eq_ok hw
  have hread := (FileGives.of_protectSecret (h.length_key .kem) ha).1
  have hblob := isProtectedBlob_protectSecret ha
  -- The first file is under the new passphrase, the second is not.
  have hkem : ∀ p', FileGives C (some a) p' .kem (keys .kem) → ∃ q, p' = some q ∧
      C.unprotectSecret a q KeyFile.kem.label = .ok (some (keys .kem)) := by
    rintro p' ⟨-, -, hx⟩
    rwa [hread, if_pos hblob] at hx
  have hdsa : ∀ p', FileGives C (ks.folder .dsa) p' .dsa (keys .dsa) → p' ≠ some new := by
    rintro p' ⟨-, -, hx⟩ rfl
    rw [if_pos hprot] at hx
    obtain ⟨q, hq, hx⟩ := hx
    exact hnew (Option.some.inj hq ▸ hx)
  simp only [Recoverable, obtains_crash_one, KeyCall.passphrase]
  rintro (⟨-, hk, -⟩ | ⟨-, hk, hd⟩ | ⟨q, hq, -, -, hd⟩)
  · obtain ⟨q, hq, -⟩ := hkem none hk
    simp at hq
  · obtain ⟨old, rfl, hopen⟩ := hkem p hk
    have hne : old ≠ new := fun heq => hdsa _ hd (congrArg some heq)
    rw [hold old a rfl hne ha] at hopen
    simp at hopen
  · exact hdsa _ hd hq.symm

theorem InForce.setPassphrase_iff (h : InForce C ks keys p) (hold : RefusesOld C ks keys p rnd new) :
    (∀ n, Recoverable C (ks.crash (setPassphrase C ks new rnd).writes n) keys p
      (.setPassphrase new)) ↔ CrashSafe C ks keys (.setPassphrase new) := by
  rcases h.setPassphrase_writes new rnd with ⟨hrefuse, hnil⟩ | ⟨hacc, hlock, hw⟩
  · rw [hnil]
    refine iff_of_true (fun n => h.recoverable_nil n) ?_
    simp only [CrashSafe]
    tauto
  constructor
  · intro hall
    by_contra hsafe
    simp only [CrashSafe, not_or, Bool.not_eq_false] at hsafe
    exact h.not_recoverable_one hold hw hsafe.2.2.2.1 hsafe.2.2.2.2 (hall 1)
  · intro hsafe n
    refine h.recoverable_writeProtected hw rfl ?_ n
    obtain ⟨a, b, -, ha, -⟩ := writeProtected_eq_ok hw
    have hcost := (protectSecret_eq_ok ha).2.1
    simp only [CrashSafe, hacc, hlock, hcost, Bool.true_eq_false, Bool.false_eq_true,
      false_or] at hsafe
    by_cases hprot : isProtectedBlob (readFileBytes (ks.folder .dsa)) = true
    · have hopen := hsafe.resolve_left (by simp [hprot])
      exact ⟨(h.gives .dsa).1, h.length_key .dsa, by rw [if_pos hprot]; exact ⟨new, rfl, hopen⟩⟩
    · exact (h.gives .dsa).mono (by simpa using hprot) _

/-- Taking the passphrase off is refused without a write, or writes both keys plain. -/
theorem InForce.removePassphrase_writes (h : InForce C ks keys p) :
    (removePassphrase C ks).writes =
      if ks.privateKeysLocked then [] else [(.kem, keys .kem), (.dsa, keys .dsa)] := by
  unfold removePassphrase
  rw [h.keysUnusable_iff]
  cases hlock : ks.privateKeysLocked with
  | true => rfl
  | false => simp [h.loadPrivate_of_unlocked hlock]

theorem InForce.removePassphrase_iff (h : InForce C ks keys p) :
    (∀ n, Recoverable C (ks.crash (removePassphrase C ks).writes n) keys p .removePassphrase) ↔
      CrashSafe C ks keys .removePassphrase := by
  rw [h.removePassphrase_writes]
  cases hlock : ks.privateKeysLocked with
  | true => exact iff_of_true (fun n => h.recoverable_nil n) (.inl hlock)
  | false =>
    simp only [CrashSafe, hlock, Bool.false_eq_true, if_false, false_or]
    constructor
    · -- Both files are written in the end, so each key is read back from its file.
      intro hall k
      by_contra hmagic
      have hmagic : isProtectedBlob (keys k) = true := by simpa using hmagic
      have hnot : ∀ p', ¬Obtains C (ks.crash [(.kem, keys .kem), (.dsa, keys .dsa)] (0 + 2))
          keys p' := by
        intro p' hobt
        obtain ⟨-, hkem, hdsa⟩ := obtains_crash_two.1 hobt
        cases k
        · exact FileGives.not_of_magic hmagic hkem
        · exact FileGives.not_of_magic hmagic hdsa
      rcases hall 2 with hobt | hobt | ⟨q, -, hobt⟩
      all_goals exact hnot _ hobt
    · intro hplain n
      have hgives : ∀ p' k, FileGives C (some (keys k)) p' k (keys k) :=
        fun p' k => .of_plain (h.length_key k) (hplain k)
      match n with
      | 0 => exact .inr (.inl (obtains_crash_zero.2 h.obtains))
      | 1 =>
        exact .inr (.inl (obtains_crash_one.2
          ⟨(obtains_iff.1 h.obtains).1, hgives p .kem, h.gives .dsa⟩))
      | n + 2 => exact .inl (obtains_crash_two.2 ⟨by simp, hgives none .kem, hgives none .dsa⟩)

theorem unlock_recoverable (h : InForce C ks keys p) (hauth : Authentic C ks.folder keys)
    (passphrase : Bytes) (n : ℕ) :
    Recoverable C (ks.crash (unlock C ks passphrase rnd).writes n) keys p (.unlock passphrase) := by
  unfold unlock
  split_ifs with hq
  · exact h.recoverable_nil n
  split
  · exact h.recoverable_nil n
  · exact h.recoverable_nil n
  rename_i r hr
  split_ifs
  · have hobt : Obtains C ks r.keys (some passphrase) := ⟨hq, r, hr, rfl⟩
    have hgives := (obtains_iff.1 hobt).2
    have hkeys : r.keys = keys := by
      funext k
      obtain ⟨-, -, hx⟩ := hgives k
      obtain ⟨-, -, hx'⟩ := h.gives k
      split_ifs at hx hx'
      · obtain ⟨q, -, hopen⟩ := hx
        exact hauth k q _ hopen
      · exact hx.symm.trans hx'
    split
    · exact h.recoverable_nil n
    · rename_i writes hw
      rw [hkeys] at hw hgives
      exact h.recoverable_writeProtected hw rfl (hgives .dsa) n
  · exact h.recoverable_nil n

/-- After every crash the keys can be obtained again, for exactly the calls in `CrashSafe`. -/
theorem crash_recoverable_iff (C : SecretCrypto) (ks : KeyStore) (keys : PrivateKeys)
    (p : Option Bytes) (call : KeyCall) (rnd : KeyFile → Randoms) (h : InForce C ks keys p)
    (hauth : Authentic C ks.folder keys)
    (hold : ∀ new, call = .setPassphrase new → RefusesOld C ks keys p rnd new) :
    (∀ n, Recoverable C (ks.crash (call.effect C ks rnd).writes n) keys p call) ↔
      CrashSafe C ks keys call := by
  cases call with
  | setPassphrase new => exact h.setPassphrase_iff (hold new rfl)
  | removePassphrase => exact h.removePassphrase_iff
  | unlock passphrase => exact iff_of_true (unlock_recoverable h hauth passphrase) trivial

/-! ## A crash that locks the keys out -/

/-- Sixteen bytes of a key, filled up with zeros. -/
def tagOf (key : Bytes) : Bytes := (key.take 16).rightpad 16 0

theorem length_tagOf (key : Bytes) : (tagOf key).length = 16 := by
  simp [tagOf, List.rightpad]

/-- A cipher for evaluation: the tag is the key itself and stands before the plaintext. -/
def tagCrypto : SecretCrypto where
  scrypt passphrase _ _ _ _ := tagOf passphrase
  encrypt key _ plaintext _ := tagOf key ++ plaintext
  decrypt key _ ciphertext _ :=
    if ciphertext.take 16 = tagOf key then some (ciphertext.drop 16) else none
  kemSecretKeySize := 1
  sigSecretKeySize := 1
  decrypt_encrypt k n p a := by simp [← length_tagOf k]
  length_encrypt k n p a := by simp [length_tagOf, Nat.add_comm]
  length_decrypt k n c a p h := by
    split_ifs at h with hc
    obtain rfl := Option.some.inj h
    have hlen := congrArg List.length hc
    simp only [List.length_take, length_tagOf] at hlen
    simp only [List.length_drop]
    omega
  kem_size := by decide
  sig_size := by decide

def oldPassphrase : Bytes := ascii "old secret"
def newPassphrase : Bytes := ascii "new secret"

def sampleRandoms (_ : KeyFile) : Randoms where
  salt := List.replicate 16 7
  nonce := List.replicate 12 9
  salt_size := by decide
  nonce_size := by decide

def sampleKeys : PrivateKeys
  | .kem => [1]
  | .dsa => [2]

def sampleFile (k : KeyFile) : Bytes :=
  protectedHeader 10 (sampleRandoms k) ++ tagOf oldPassphrase ++ sampleKeys k

/-- Both keys under the old passphrase, and unlocked. -/
def sampleStore : KeyStore where
  keysDir := "keys"
  folder k := some (sampleFile k)
  cache := sampleKeys
  kdfLog2N := 10

theorem sampleStore_inForce :
    InForce tagCrypto sampleStore sampleKeys (some oldPassphrase) where
  obtains := by
    refine obtains_iff.2 ⟨by decide, fun k => ?_⟩
    refine ⟨by cases k <;> decide, by cases k <;> decide, ?_⟩
    rw [if_pos (by cases k <;> decide)]
    refine ⟨_, rfl, ?_⟩
    cases k <;> decide +kernel
  cache k := .inr rfl

/-- Under the sample cipher a file opens only with a passphrase that has its tag. -/
theorem tagCrypto_opens {blob q x label : Bytes}
    (h : tagCrypto.unprotectSecret blob q label = .ok (some x)) :
    (blob.drop protectedHeaderSize).take 16 = tagOf (tagOf q) ∧
      x = (blob.drop protectedHeaderSize).drop 16 := by
  obtain ⟨-, hdec⟩ := decrypt_of_unprotectSecret h
  simp only [tagCrypto] at hdec
  split_ifs at hdec with htag
  exact ⟨htag, (Option.some.inj hdec).symm⟩

theorem sampleStore_authentic : Authentic tagCrypto sampleStore.folder sampleKeys := by
  intro k q x h
  rw [(tagCrypto_opens h).2]
  cases k <;> decide

theorem sampleStore_refusesOld : RefusesOld tagCrypto sampleStore sampleKeys (some oldPassphrase)
    sampleRandoms newPassphrase := by
  intro old blob hold _ hblob
  obtain rfl := Option.some.inj hold
  obtain ⟨-, -, rfl⟩ := protectSecret_eq_ok hblob
  decide +kernel

/-- The passphrase is changed and the client stops between the two files: no passphrase obtains the
keys any more. -/
theorem setPassphrase_crash_locks_out :
    InForce tagCrypto sampleStore sampleKeys (some oldPassphrase) ∧
      ∀ p, ¬Obtains tagCrypto (sampleStore.crash
        (setPassphrase tagCrypto sampleStore newPassphrase sampleRandoms).writes 1) sampleKeys p := by
  refine ⟨sampleStore_inForce, fun p hobt => ?_⟩
  have hgives := (obtains_iff.1 hobt).2
  have hopens : ∀ k, ∃ q, p = some q ∧ ((readFileBytes ((sampleStore.crash
      (setPassphrase tagCrypto sampleStore newPassphrase sampleRandoms).writes 1).folder k)).drop
        protectedHeaderSize).take 16 = tagOf (tagOf q) := by
    intro k
    obtain ⟨-, -, hx⟩ := hgives k
    rw [if_pos (by cases k <;> decide +kernel)] at hx
    obtain ⟨q, hq, hx⟩ := hx
    exact ⟨q, hq, (tagCrypto_opens hx).1⟩
  obtain ⟨q, rfl, hkem⟩ := hopens .kem
  obtain ⟨q', hq, hdsa⟩ := hopens .dsa
  obtain rfl := Option.some.inj hq
  have hne : ((readFileBytes ((sampleStore.crash (setPassphrase tagCrypto sampleStore newPassphrase
      sampleRandoms).writes 1).folder .kem)).drop protectedHeaderSize).take 16 ≠
      ((readFileBytes ((sampleStore.crash (setPassphrase tagCrypto sampleStore newPassphrase
      sampleRandoms).writes 1).folder .dsa)).drop protectedHeaderSize).take 16 := by decide +kernel
  exact hne (hkem.trans hdsa.symm)

theorem crash_recoverable_iff_sample :
    InForce tagCrypto sampleStore sampleKeys (some oldPassphrase) ∧
      Authentic tagCrypto sampleStore.folder sampleKeys ∧
      RefusesOld tagCrypto sampleStore sampleKeys (some oldPassphrase) sampleRandoms
        newPassphrase ∧
      ((∀ n, Recoverable tagCrypto (sampleStore.crash ((KeyCall.setPassphrase newPassphrase).effect
          tagCrypto sampleStore sampleRandoms).writes n) sampleKeys (some oldPassphrase)
          (.setPassphrase newPassphrase)) ↔
        CrashSafe tagCrypto sampleStore sampleKeys (.setPassphrase newPassphrase)) := by
  refine ⟨sampleStore_inForce, sampleStore_authentic, sampleStore_refusesOld,
    crash_recoverable_iff _ _ _ _ _ _ sampleStore_inForce sampleStore_authentic ?_⟩
  intro new hnew
  obtain rfl := KeyCall.setPassphrase.inj hnew
  exact sampleStore_refusesOld

end PqSuite
