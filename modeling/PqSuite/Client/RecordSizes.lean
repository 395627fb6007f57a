import PqSuite.Client.KeyStore
import PqSuite.Client.MessageRecord
import PqSuite.Client.Upkeep

/-!
# The size of a record

A signed record that comes after nothing has a size that depends on its payload only, and is read back
unless it is too large.
-/

namespace PqSuite.Engine

open Chat Reader

variable {r : Record}

structure MlSizes (cfg : EngineSetup) : Prop where
  signingKey : cfg.sigPublicKeySize = 1952
  encryptionKey : cfg.kemPublicKeySize = 1184
  /-- A signature of another size is not valid. -/
  signature : ∀ m s k, cfg.verify m s k = true → s.length = 3309

variable {cfg : EngineSetup}

/-! ## The size of a record -/

theorem MlSizes.length_signature (h : MlSizes cfg) {m s : Bytes} (hs : cfg.sign m cfg.privateDsa = .ok s) :
    s.length = 3309 :=
  h.signature m s cfg.publicDsa (cfg.verify_sign m s hs)

theorem MlSizes.length_record (h : MlSizes cfg) {raw : Bytes}
    (hraw : signRecord cfg.toChatCrypto r cfg.privateDsa = .ok raw) (hprev : r.ownPrev = [])
    (hseen : r.seen = []) : raw.length = 3461 + r.payload.length := by
  obtain ⟨hwell, signature, hsign, rfl⟩ := signRecord_eq_ok hraw
  simp only [wellFormed, Bool.and_eq_true, decide_eq_true_eq] at hwell
  obtain ⟨⟨⟨⟨⟨⟨⟨⟨⟨⟨hconv, hmsg⟩, hsender⟩, hrecipients⟩, -⟩, -⟩, -⟩, -⟩, -⟩, -⟩, -⟩ := hwell
  simp only [writeBody, hprev, hseen, List.map_nil, List.flatten_nil, List.length_append, List.length_nil,
    length_writeBlob, length_writeU32, length_writeU64, hconv, hmsg, hsender, hrecipients, idBytes,
    hashBytes, h.length_signature hsign]
  omega

theorem MlSizes.parseRecord_signed (h : MlSizes cfg) {raw : Bytes}
    (hraw : signRecord cfg.toChatCrypto r cfg.privateDsa = .ok raw)
    (hsize : raw.length ≤ Chat.maxRecordBytes) : (parseRecord cfg.toChatCrypto raw).isSome := by
  obtain ⟨hwell, signature, hsign, rfl⟩ := signRecord_eq_ok hraw
  have hsignature : signature.length ≤ maxSignatureBytes := by
    rw [h.length_signature hsign]
    decide
  rw [Chat.parseRecord_signed hwell hsignature hsize]
  rfl

/-! ### A device with keys of these sizes -/

def sizedSetup : EngineSetup where
  sha256 b := ⟨List.replicate 32 (b.headD 0), List.length_replicate⟩
  sign _ _ := .ok (List.replicate 3309 0)
  verify _ s _ := s.length = 3309
  sigPublicKeySize := 1952
  kemPublicKeySize := 1184
  publicDsa := List.replicate 1952 1
  privateDsa := [2]
  verify_sign m s h := by
    obtain rfl := Except.ok.inj h
    exact decide_eq_true List.length_replicate
  secret := tagCrypto

theorem sizedSetup_verify {m s k : Bytes} : sizedSetup.verify m s k = true ↔ s.length = 3309 :=
  decide_eq_true_iff

theorem sizedSetup_sizes : MlSizes sizedSetup := ⟨rfl, rfl, fun _ _ _ => sizedSetup_verify.1⟩

def groupId : Bytes := List.replicate 16 7

theorem signRecord_sized (h : wellFormed r = true) :
    signRecord sizedSetup.toChatCrypto r sizedSetup.privateDsa =
      .ok (writeBlob (writeBody r) ++ writeBlob (List.replicate 3309 0)) := by
  unfold signRecord
  rw [if_pos h]
  rfl

end PqSuite.Engine
