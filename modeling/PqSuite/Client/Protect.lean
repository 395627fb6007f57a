import PqSuite.Protocol.Wire

/-!
# Secrets under a passphrase (`crypto_engine.cpp`)

A protected secret is a 37-byte header followed by the AES-GCM ciphertext of the secret under the
scrypt key of the passphrase, with the header and a label authenticated along with it. scrypt and
AES-GCM come from OpenSSL; `SecretCrypto` states what is used of them.
-/

namespace PqSuite

/-- scrypt and AES-256-GCM, and the sizes of the two private keys. -/
structure SecretCrypto where
  scrypt : (passphrase salt : Bytes) → (log2N r p : UInt8) → Bytes
  encrypt : (key nonce plaintext aad : Bytes) → Bytes
  decrypt : (key nonce ciphertext aad : Bytes) → Option Bytes
  kemSecretKeySize : ℕ
  sigSecretKeySize : ℕ
  decrypt_encrypt : ∀ k n p a, decrypt k n (encrypt k n p a) a = some p
  /-- The tag adds 16 bytes. -/
  length_encrypt : ∀ k n p a, (encrypt k n p a).length = p.length + 16
  length_decrypt : ∀ k n c a p, decrypt k n c a = some p → c.length = p.length + 16
  kem_size : 0 < kemSecretKeySize ∧ kemSecretKeySize ≤ 32 * 1024
  sig_size : 0 < sigSecretKeySize ∧ sigSecretKeySize ≤ 32 * 1024

structure Randoms where
  salt : Bytes
  nonce : Bytes
  salt_size : salt.length = 16
  nonce_size : nonce.length = 12

def protectedMagic : Bytes := ascii "PQKE"
def protectedHeaderSize : ℕ := 37
def minScryptLog2N : UInt8 := 10
def maxScryptLog2N : UInt8 := 18

/-- Whether the data starts like a protected secret. -/
def isProtectedBlob (data : Bytes) : Bool := data.take 4 = protectedMagic

/-- Magic, version, key derivation and its settings, salt and nonce. -/
def protectedHeader (log2N : UInt8) (rnd : Randoms) : Bytes :=
  protectedMagic ++ [1, 1, log2N, 8, 1] ++ rnd.salt ++ rnd.nonce

namespace SecretCrypto

variable (C : SecretCrypto)

def protectSecret (secret passphrase label : Bytes) (log2N : UInt8) (rnd : Randoms) :
    Except String Bytes :=
  if passphrase = [] then .error "The passphrase is empty"
  else if log2N < minScryptLog2N ∨ log2N > maxScryptLog2N then
    .error "Key derivation cost is out of range"
  else
    let header := protectedHeader log2N rnd
    .ok (header ++
      C.encrypt (C.scrypt passphrase rnd.salt log2N 8 1) rnd.nonce secret (header ++ label))

/-- `none` is a wrong passphrase, a wrong label or a changed file. -/
def unprotectSecret (blob passphrase label : Bytes) : Except String (Option Bytes) :=
  if isProtectedBlob blob = false ∨ blob.length < protectedHeaderSize + 16 then
    .error "The protected key file is damaged"
  else if blob.getD 4 0 ≠ 1 ∨ blob.getD 5 0 ≠ 1 then
    .error "The protected key file was made by an incompatible version"
  else
    let log2N := blob.getD 6 0
    let r := blob.getD 7 0
    let p := blob.getD 8 0
    if log2N < minScryptLog2N ∨ log2N > maxScryptLog2N ∨ r ≠ 8 ∨ p ≠ 1 then
      .error "The protected key file uses unsupported key derivation settings"
    else if passphrase = [] then .ok none
    else
      let salt := (blob.drop 9).take 16
      let nonce := (blob.drop 25).take 12
      let header := blob.take protectedHeaderSize
      .ok (C.decrypt (C.scrypt passphrase salt log2N r p) nonce (blob.drop protectedHeaderSize)
        (header ++ label))

end SecretCrypto

/-! ## What a protected secret opens to -/

theorem length_protectedHeader (log2N : UInt8) (rnd : Randoms) :
    (protectedHeader log2N rnd).length = protectedHeaderSize := by
  simp [protectedHeader, rnd.salt_size, rnd.nonce_size, protectedMagic, ascii, protectedHeaderSize]

variable {C : SecretCrypto} {secret passphrase label blob : Bytes} {log2N : UInt8} {rnd : Randoms}

theorem protectSecret_eq_ok (h : C.protectSecret secret passphrase label log2N rnd = .ok blob) :
    passphrase ≠ [] ∧ ¬(log2N < minScryptLog2N ∨ log2N > maxScryptLog2N) ∧
      blob = protectedHeader log2N rnd ++ C.encrypt (C.scrypt passphrase rnd.salt log2N 8 1)
        rnd.nonce secret (protectedHeader log2N rnd ++ label) := by
  unfold SecretCrypto.protectSecret at h
  split_ifs at h with hp hn
  · exact ⟨hp, hn, (Except.ok.inj h).symm⟩

theorem isProtectedBlob_protectSecret
    (h : C.protectSecret secret passphrase label log2N rnd = .ok blob) :
    isProtectedBlob blob = true := by
  obtain ⟨-, -, rfl⟩ := protectSecret_eq_ok h
  simp [isProtectedBlob, protectedHeader, protectedMagic, ascii]

theorem length_protectSecret (h : C.protectSecret secret passphrase label log2N rnd = .ok blob) :
    blob.length = protectedHeaderSize + 16 + secret.length := by
  obtain ⟨-, -, rfl⟩ := protectSecret_eq_ok h
  rw [List.length_append, length_protectedHeader, C.length_encrypt]
  omega

theorem protectedHeader_append (log2N : UInt8) (rnd : Randoms) (rest : Bytes) :
    protectedHeader log2N rnd ++ rest =
      80 :: 81 :: 75 :: 69 :: 1 :: 1 :: log2N :: 8 :: 1 :: (rnd.salt ++ (rnd.nonce ++ rest)) := by
  simp [protectedHeader, protectedMagic, ascii]

theorem unprotectSecret_protectSecret
    (h : C.protectSecret secret passphrase label log2N rnd = .ok blob) :
    C.unprotectSecret blob passphrase label = .ok (some secret) := by
  have hlen := length_protectSecret h
  have hprot := isProtectedBlob_protectSecret h
  obtain ⟨hp, hn, hblob⟩ := protectSecret_eq_ok h
  set ct := C.encrypt (C.scrypt passphrase rnd.salt log2N 8 1) rnd.nonce secret
    (protectedHeader log2N rnd ++ label) with hct
  have htake : blob.take protectedHeaderSize = protectedHeader log2N rnd := by
    rw [hblob, ← length_protectedHeader log2N rnd, List.take_left]
  have hdrop : blob.drop protectedHeaderSize = ct := by
    rw [hblob, ← length_protectedHeader log2N rnd, List.drop_left]
  rw [protectedHeader_append] at hblob
  have hsalt : (blob.drop 9).take 16 = rnd.salt := by
    rw [hblob, ← rnd.salt_size]
    simp [List.drop_succ_cons]
  have hnonce : (blob.drop 25).take 12 = rnd.nonce := by
    rw [hblob, show 25 = 9 + rnd.salt.length by rw [rnd.salt_size], ← List.drop_drop,
      ← rnd.nonce_size]
    simp [List.drop_succ_cons]
  have h4 : blob.getD 4 0 = 1 ∧ blob.getD 5 0 = 1 ∧ blob.getD 6 0 = log2N ∧
      blob.getD 7 0 = 8 ∧ blob.getD 8 0 = 1 := by
    rw [hblob]; exact ⟨rfl, rfl, rfl, rfl, rfl⟩
  obtain ⟨hv, hk, hl, hr, hpp⟩ := h4
  have hsize : ¬(isProtectedBlob blob = false ∨ blob.length < protectedHeaderSize + 16) := by
    simp [hprot, hlen]
  simp only [SecretCrypto.unprotectSecret, hsize, hv, hk, hl, hr, hpp, hn, hp, hsalt, hnonce,
    htake, hdrop, if_false, ne_eq, not_true_eq_false, or_self, or_false]
  rw [hct, C.decrypt_encrypt]

/-- What is opened was decrypted with the scrypt key of the passphrase. -/
theorem decrypt_of_unprotectSecret {x : Bytes}
    (h : C.unprotectSecret blob passphrase label = .ok (some x)) :
    protectedHeaderSize + 16 ≤ blob.length ∧
      C.decrypt (C.scrypt passphrase ((blob.drop 9).take 16) (blob.getD 6 0) (blob.getD 7 0)
        (blob.getD 8 0)) ((blob.drop 25).take 12) (blob.drop protectedHeaderSize)
        (blob.take protectedHeaderSize ++ label) = some x := by
  unfold SecretCrypto.unprotectSecret at h
  simp only at h
  split_ifs at h with hdam hver hset hp
  · simp at h
  · exact ⟨not_lt.1 (not_or.1 hdam).2, Except.ok.inj h⟩

theorem length_of_unprotectSecret {x : Bytes}
    (h : C.unprotectSecret blob passphrase label = .ok (some x)) :
    blob.length = protectedHeaderSize + 16 + x.length := by
  obtain ⟨hle, hdec⟩ := decrypt_of_unprotectSecret h
  have hlen := C.length_decrypt _ _ _ _ _ hdec
  rw [List.length_drop] at hlen
  omega

end PqSuite
