import Mathlib.Data.List.Perm.Basic
import PqSuite.Client.Contacts
import PqSuite.Client.PrekeyVault
import PqSuite.Protocol.FileHeader

/-!
# Everything that is signed or hashed into a chain

The byte strings that are signed, and those an archive's chain hashes, come from `relay_protocol.cpp`,
`message_record.cpp`, `identity_bundle.cpp`, `prekey.cpp` and `transfer_engine.cpp`. Each starts with a
label of its own, so two kinds never agree. Within a kind every field but a final body has its length
before it, cast to 32 bits: up to there the bytes determine the fields, and beyond it they need not.
-/

namespace PqSuite

open Relay FileProtocol Reader

inductive StatementKind where
  | hello
  | register
  | auth
  | archiveJoin
  | archiveAuth
  | archiveDelete
  | archiveGenesis
  | archiveEntry
  | record
  | bundle
  | prekey
  | fileHeader
  deriving DecidableEq

def StatementKind.label : StatementKind → Bytes
  | hello => helloLabel
  | register => registerLabel
  | auth => authLabel
  | archiveJoin => archiveJoinLabel
  | archiveAuth => archiveAuthLabel
  | archiveDelete => archiveDeleteLabel
  | archiveGenesis => archiveGenesisLabel
  | archiveEntry => archiveEntryLabel
  | record => Chat.signatureLabel
  | bundle => IdentityBundle.signatureLabel
  | prekey => prekeySignLabel
  | fileHeader => signatureContext

def StatementKind.all : List StatementKind :=
  [hello, register, auth, archiveJoin, archiveAuth, archiveDelete, archiveGenesis, archiveEntry,
    record, bundle, prekey, fileHeader]

theorem StatementKind.mem_all (k : StatementKind) : k ∈ all := by
  cases k <;> decide

/-- What is signed or hashed, with its fields. The previous hash of an archive entry is any byte string
here, as it is for the function that writes it. -/
inductive Statement where
  | hello (clientNonce relayId : Bytes) (version : UInt32) (authChallenge : Bytes)
  | register (relayId mailboxId accessPublicKey sendTokenHash : Bytes)
  | auth (authChallenge relayId mailboxId : Bytes)
  | archiveJoin (relayId archiveId publicKey joinTokenHash : Bytes)
  | archiveAuth (authChallenge relayId archiveId keyHash : Bytes)
  | archiveDelete (relayId archiveId : Bytes) (scope : UInt32) (opId : Bytes) (expiresAt : UInt64)
      (entryHashes : List Bytes)
  | archiveGenesis (archiveId : Bytes)
  | archiveEntry (archiveId : Bytes) (number : UInt64) (previousHash ciphertext : Bytes)
  | record (body : Bytes)
  | bundle (body : Bytes)
  | prekey (id kemPublic x25519Public : Bytes) (lastResort : Bool) (createdAt : UInt64)
  | fileHeader (publicFields filename senderFingerprint : Bytes)

namespace Statement

def kind : Statement → StatementKind
  | hello .. => .hello
  | register .. => .register
  | auth .. => .auth
  | archiveJoin .. => .archiveJoin
  | archiveAuth .. => .archiveAuth
  | archiveDelete .. => .archiveDelete
  | archiveGenesis .. => .archiveGenesis
  | archiveEntry .. => .archiveEntry
  | record .. => .record
  | bundle .. => .bundle
  | prekey .. => .prekey
  | fileHeader .. => .fileHeader

def bytes : Statement → Bytes
  | hello nonce relayId version challenge => helloSigningInput nonce relayId version challenge
  | register relayId mailboxId key tokenHash => registerSigningInput relayId mailboxId key tokenHash
  | auth challenge relayId mailboxId => authSigningInput challenge relayId mailboxId
  | archiveJoin relayId archiveId key tokenHash =>
    archiveJoinSigningInput relayId archiveId key tokenHash
  | archiveAuth challenge relayId archiveId keyHash =>
    archiveAuthSigningInput challenge relayId archiveId keyHash
  | archiveDelete relayId archiveId scope opId expiresAt hashes =>
    archiveDeleteSigningInput relayId archiveId scope opId expiresAt hashes
  | archiveGenesis archiveId => archiveGenesisInput archiveId
  | archiveEntry archiveId number previousHash ciphertext =>
    writeString archiveEntryLabel ++ writeBlob archiveId ++ writeU64 number ++
      writeBlob previousHash ++ writeBlob ciphertext
  | record body => Chat.signingInput body
  | bundle body => IdentityBundle.signingInput body
  | prekey id kemPublic x25519Public lastResort createdAt =>
    Prekey.signingInput ⟨id, kemPublic, x25519Public, lastResort, createdAt, []⟩
  | fileHeader publicFields filename fingerprint =>
    buildSigningPayload publicFields filename fingerprint

def blobs : Statement → List Bytes
  | hello nonce relayId _ challenge => [nonce, relayId, challenge]
  | register relayId mailboxId key tokenHash => [relayId, mailboxId, key, tokenHash]
  | auth challenge relayId mailboxId => [challenge, relayId, mailboxId]
  | archiveJoin relayId archiveId key tokenHash => [relayId, archiveId, key, tokenHash]
  | archiveAuth challenge relayId archiveId keyHash => [challenge, relayId, archiveId, keyHash]
  | archiveDelete relayId archiveId _ opId _ hashes => relayId :: archiveId :: opId :: hashes
  | archiveGenesis archiveId => [archiveId]
  | archiveEntry archiveId _ previousHash ciphertext => [archiveId, previousHash, ciphertext]
  | record _ => []
  | bundle _ => []
  | prekey id kemPublic x25519Public _ _ => [id, kemPublic, x25519Public]
  | fileHeader publicFields filename fingerprint => [publicFields, filename, fingerprint]

/-- Every length fits the 32 bits it is written in. IDs and hashes have a few bytes, and keys,
ciphertexts and file names come out of decoders and checks with limits far below. -/
def Sized (s : Statement) : Prop := ∀ b ∈ s.blobs, b.length < 2 ^ 32

/-! ## Kinds -/

theorem bytes_eq_label (s : Statement) : ∃ rest, s.bytes = writeString s.kind.label ++ rest := by
  cases s with
  | hello => exact ⟨_, by simp only [bytes, helloSigningInput, List.append_assoc]; rfl⟩
  | register => exact ⟨_, by simp only [bytes, registerSigningInput, List.append_assoc]; rfl⟩
  | auth => exact ⟨_, by simp only [bytes, authSigningInput, List.append_assoc]; rfl⟩
  | archiveJoin => exact ⟨_, by simp only [bytes, archiveJoinSigningInput, List.append_assoc]; rfl⟩
  | archiveAuth => exact ⟨_, by simp only [bytes, archiveAuthSigningInput, List.append_assoc]; rfl⟩
  | archiveDelete =>
    exact ⟨_, by simp only [bytes, archiveDeleteSigningInput, List.append_assoc]; rfl⟩
  | archiveGenesis => exact ⟨_, rfl⟩
  | archiveEntry => exact ⟨_, by simp only [bytes, List.append_assoc]; rfl⟩
  | record | bundle => exact ⟨_, rfl⟩
  | prekey => exact ⟨_, by simp only [bytes, Prekey.signingInput, List.append_assoc]; rfl⟩
  | fileHeader => exact ⟨_, by simp only [bytes, buildSigningPayload, List.append_assoc]; rfl⟩

-- One decision for both, as the labels are texts that are slow to spell out.
theorem labels_nodup : (StatementKind.all.map StatementKind.label).Nodup ∧
    ∀ k ∈ StatementKind.all, k.label.length < 2 ^ 32 := by decide +kernel

theorem length_label_lt (k : StatementKind) : k.label.length < 2 ^ 32 := labels_nodup.2 k k.mem_all

theorem label_injective : Function.Injective StatementKind.label := fun k l h =>
  List.inj_on_of_nodup_map labels_nodup.1 k.mem_all l.mem_all h

theorem kind_eq_of_bytes_eq {s t : Statement} (h : s.bytes = t.bytes) : s.kind = t.kind := by
  obtain ⟨rest, hs⟩ := s.bytes_eq_label
  obtain ⟨rest', ht⟩ := t.bytes_eq_label
  rw [hs, ht] at h
  exact label_injective (writeBlob_append_inj (length_label_lt _) (length_label_lt _) h).1

/-! ## Fields -/

/-- The last field of a statement: nothing follows it. -/
theorem writeBlob_inj {b c : Bytes} (h : writeBlob b = writeBlob c) : b = c := by
  have hlen := congrArg List.length h
  simp only [writeBlob, List.length_append, length_writeU32] at hlen
  rw [← List.append_nil (writeBlob b), ← List.append_nil (writeBlob c)] at h
  exact (writeBlob_append_inj_of_length_eq (by omega) h).1

theorem writeBlobs_inj {bs cs : List Bytes} (hbs : ∀ b ∈ bs, b.length < 2 ^ 32)
    (hcs : ∀ c ∈ cs, c.length < 2 ^ 32) (h : bs.flatMap writeBlob = cs.flatMap writeBlob) :
    bs = cs := by
  refine Exact.flatMap_inj (exact_blob (show 2 ^ 32 - 1 < 2 ^ 32 by decide)) ?_ ?_ ?_ h
  · intro b hb
    exact absurd (congrArg List.length hb) (by simp [writeBlob])
  · exact fun b hb => Nat.le_sub_one_of_lt (hbs b hb)
  · exact fun c hc => Nat.le_sub_one_of_lt (hcs c hc)

theorem flagByte_inj :
    ∀ l l' : Bool, ((if l then 1 else 0 : UInt8) = if l' then 1 else 0) → l = l' := by decide

section

variable {s t : Statement}

/-- Up to 32 bits of length, the bytes determine every field. -/
theorem eq_of_bytes_eq (hs : s.Sized) (ht : t.Sized) (h : s.bytes = t.bytes) : s = t := by
  have hkind := kind_eq_of_bytes_eq h
  simp only [Sized] at hs ht
  -- the fields are compared in the order they are written; the last one needs no bound
  cases s with
  | hello n r v c =>
    cases t with
    | hello n' r' v' c' =>
      simp only [blobs, List.forall_mem_cons] at hs ht
      simp only [bytes, helloSigningInput, List.append_assoc] at h
      obtain ⟨hr, h⟩ := writeBlob_append_inj hs.2.1 ht.2.1 (List.append_cancel_left h)
      obtain ⟨hv, h⟩ := writeU32_append_inj h
      obtain ⟨hn, h⟩ := writeBlob_append_inj hs.1 ht.1 h
      rw [hr, hv, hn, writeBlob_inj h]
    | _ => cases hkind
  | register r m k d =>
    cases t with
    | register r' m' k' d' =>
      simp only [blobs, List.forall_mem_cons] at hs ht
      simp only [bytes, registerSigningInput, List.append_assoc] at h
      obtain ⟨hr, h⟩ := writeBlob_append_inj hs.1 ht.1 (List.append_cancel_left h)
      obtain ⟨hm, h⟩ := writeBlob_append_inj hs.2.1 ht.2.1 h
      obtain ⟨hk, h⟩ := writeBlob_append_inj hs.2.2.1 ht.2.2.1 h
      rw [hr, hm, hk, writeBlob_inj h]
    | _ => cases hkind
  | auth c r m =>
    cases t with
    | auth c' r' m' =>
      simp only [blobs, List.forall_mem_cons] at hs ht
      simp only [bytes, authSigningInput, List.append_assoc] at h
      obtain ⟨hr, h⟩ := writeBlob_append_inj hs.2.1 ht.2.1 (List.append_cancel_left h)
      obtain ⟨hm, h⟩ := writeBlob_append_inj hs.2.2.1 ht.2.2.1 h
      rw [hr, hm, writeBlob_inj h]
    | _ => cases hkind
  | archiveJoin r a k d =>
    cases t with
    | archiveJoin r' a' k' d' =>
      simp only [blobs, List.forall_mem_cons] at hs ht
      simp only [bytes, archiveJoinSigningInput, List.append_assoc] at h
      obtain ⟨hr, h⟩ := writeBlob_append_inj hs.1 ht.1 (List.append_cancel_left h)
      obtain ⟨ha, h⟩ := writeBlob_append_inj hs.2.1 ht.2.1 h
      obtain ⟨hk, h⟩ := writeBlob_append_inj hs.2.2.1 ht.2.2.1 h
      rw [hr, ha, hk, writeBlob_inj h]
    | _ => cases hkind
  | archiveAuth c r a k =>
    cases t with
    | archiveAuth c' r' a' k' =>
      simp only [blobs, List.forall_mem_cons] at hs ht
      simp only [bytes, archiveAuthSigningInput, List.append_assoc] at h
      obtain ⟨hr, h⟩ := writeBlob_append_inj hs.2.1 ht.2.1 (List.append_cancel_left h)
      obtain ⟨ha, h⟩ := writeBlob_append_inj hs.2.2.1 ht.2.2.1 h
      obtain ⟨hk, h⟩ := writeBlob_append_inj hs.2.2.2.1 ht.2.2.2.1 h
      rw [hr, ha, hk, writeBlob_inj h]
    | _ => cases hkind
  | archiveDelete r a scope op e es =>
    cases t with
    | archiveDelete r' a' scope' op' e' es' =>
      simp only [blobs, List.forall_mem_cons] at hs ht
      simp only [bytes, archiveDeleteSigningInput, List.append_assoc] at h
      obtain ⟨hr, h⟩ := writeBlob_append_inj hs.1 ht.1 (List.append_cancel_left h)
      obtain ⟨ha, h⟩ := writeBlob_append_inj hs.2.1 ht.2.1 h
      obtain ⟨hscope, h⟩ := writeU32_append_inj h
      obtain ⟨hop, h⟩ := writeBlob_append_inj hs.2.2.1 ht.2.2.1 h
      obtain ⟨he, h⟩ := writeU64_append_inj h
      obtain ⟨-, h⟩ := writeU32_append_inj h
      rw [hr, ha, hscope, hop, he, writeBlobs_inj hs.2.2.2 ht.2.2.2 h]
    | _ => cases hkind
  | archiveGenesis a =>
    cases t with
    | archiveGenesis a' => rw [writeBlob_inj (List.append_cancel_left h)]
    | _ => cases hkind
  | archiveEntry a n p c =>
    cases t with
    | archiveEntry a' n' p' c' =>
      simp only [blobs, List.forall_mem_cons] at hs ht
      simp only [bytes, List.append_assoc] at h
      obtain ⟨ha, h⟩ := writeBlob_append_inj hs.1 ht.1 (List.append_cancel_left h)
      obtain ⟨hn, h⟩ := writeU64_append_inj h
      obtain ⟨hp, h⟩ := writeBlob_append_inj hs.2.1 ht.2.1 h
      rw [ha, hn, hp, writeBlob_inj h]
    | _ => cases hkind
  | record b =>
    cases t with
    | record b' => rw [List.append_cancel_left h]
    | _ => cases hkind
  | bundle b =>
    cases t with
    | bundle b' => rw [List.append_cancel_left h]
    | _ => cases hkind
  | prekey i k x l c =>
    cases t with
    | prekey i' k' x' l' c' =>
      simp only [blobs, List.forall_mem_cons] at hs ht
      simp only [bytes, Prekey.signingInput, List.append_assoc] at h
      obtain ⟨hi, h⟩ := writeBlob_append_inj hs.1 ht.1 (List.append_cancel_left h)
      obtain ⟨hk, h⟩ := writeBlob_append_inj hs.2.1 ht.2.1 h
      obtain ⟨hx, h⟩ := writeBlob_append_inj hs.2.2.1 ht.2.2.1 h
      obtain ⟨hl, hc⟩ := List.cons.inj h
      rw [← List.append_nil (writeU64 c), ← List.append_nil (writeU64 c')] at hc
      rw [hi, hk, hx, flagByte_inj l l' hl, (writeU64_append_inj hc).1]
    | _ => cases hkind
  | fileHeader p f g =>
    cases t with
    | fileHeader p' f' g' =>
      simp only [blobs, List.forall_mem_cons] at hs ht
      simp only [bytes, buildSigningPayload, List.append_assoc] at h
      obtain ⟨hp, h⟩ := writeBlob_append_inj hs.1 ht.1 (List.append_cancel_left h)
      obtain ⟨hf, h⟩ := writeBlob_append_inj hs.2.1 ht.2.1 h
      rw [hp, hf, writeBlob_inj h]
    | _ => cases hkind

end

end Statement

/-! ## Bodies

A record and a bundle are signed as a whole body, and the body determines what is in it. -/

theorem Chat.writeBody_inj {r r' : Chat.Record} (hr : Chat.wellFormed r = true)
    (hr' : Chat.wellFormed r' = true) (h : Chat.writeBody r = Chat.writeBody r') : r = r' := by
  have hread := (Chat.reads_body hr).whole_eq
  rw [h, (Chat.reads_body hr').whole_eq] at hread
  exact (Option.some.inj hread).symm

namespace IdentityBundle

theorem fieldsOf_inj {sp sp' ep ep' name name' : Bytes} {a a' : Address}
    (h : fieldsOf sp ep name a = fieldsOf sp' ep' name' a') :
    sp = sp' ∧ ep = ep' ∧ name = name' ∧ a = a' := by
  -- a field is what the list holds under its type, or empty
  have hname : ∀ sp ep name a, ((fieldsOf sp ep name a).lookup 3).getD [] = name := by
    intro sp ep name a
    unfold fieldsOf
    split_ifs <;> simp_all [List.lookup_cons]
  have hrelay : ∀ sp ep name a, ((fieldsOf sp ep name a).lookup 5).getD [] = a.relayId := by
    intro sp ep name a
    unfold fieldsOf
    split_ifs <;> simp_all [List.lookup_cons, Address.anyMailbox]
  have hmailbox : ∀ sp ep name a, ((fieldsOf sp ep name a).lookup 6).getD [] = a.mailboxId := by
    intro sp ep name a
    unfold fieldsOf
    split_ifs <;> simp_all [List.lookup_cons, Address.anyMailbox]
  have hhint : ∀ sp ep name a, ((fieldsOf sp ep name a).lookup 16).getD [] = a.relayHint := by
    intro sp ep name a
    unfold fieldsOf
    split_ifs <;> simp_all [List.lookup_cons]
  have hkeys := h
  simp only [fieldsOf, List.cons_append, List.cons.injEq, Prod.mk.injEq, true_and] at hkeys
  refine ⟨hkeys.1, hkeys.2.1, by rw [← hname sp ep name a, h, hname], ?_⟩
  have hhints : a.relayHint = a'.relayHint := by rw [← hhint sp ep name a, h, hhint]
  have hrelays : a.relayId = a'.relayId := by rw [← hrelay sp ep name a, h, hrelay]
  have hmailboxes : a.mailboxId = a'.mailboxId := by rw [← hmailbox sp ep name a, h, hmailbox]
  cases a
  cases a'
  rw [Address.mk.injEq]
  exact ⟨hhints, hrelays, hmailboxes⟩

theorem writeBody_inj {issued issued' : UInt64} {fs fs' : List (UInt32 × Bytes)}
    (hfs : ∀ f ∈ fs, f.2.length < 2 ^ 32) (hfs' : ∀ f ∈ fs', f.2.length < 2 ^ 32)
    (h : writeBody issued fs = writeBody issued' fs') : issued = issued' ∧ fs = fs' := by
  simp only [writeBody, List.append_assoc] at h
  obtain ⟨hissued, h⟩ := writeU64_append_inj
    (List.append_cancel_left (List.append_cancel_left h))
  obtain ⟨-, h⟩ := writeU32_append_inj h
  refine ⟨hissued, ?_⟩
  refine (exact_u32.pair (exact_blob (show 2 ^ 32 - 1 < 2 ^ 32 by decide))).flatMap_inj ?_ ?_ ?_ h
  · intro f hf
    exact absurd (congrArg List.length hf) (by simp)
  · exact fun f hf => ⟨trivial, Nat.le_sub_one_of_lt (hfs f hf)⟩
  · exact fun f hf => ⟨trivial, Nat.le_sub_one_of_lt (hfs' f hf)⟩

end IdentityBundle

/-! ## Main results -/

/-- A signature or a hash made for one purpose never stands for another, and the fields of what is signed,
in the body of a record and of a bundle too, are determined as long as their lengths fit 32 bits. -/
theorem signed_bytes_determine :
    (∀ s t : Statement, s.bytes = t.bytes → s.kind = t.kind) ∧
    (∀ s t : Statement, s.Sized → t.Sized → s.bytes = t.bytes → s = t) ∧
    (∀ r r' : Chat.Record, Chat.wellFormed r = true → Chat.wellFormed r' = true →
      Chat.signingInput (Chat.writeBody r) = Chat.signingInput (Chat.writeBody r') → r = r') ∧
    ∀ (sp sp' ep ep' name name' : Bytes) (a a' : IdentityBundle.Address) (issued issued' : UInt64),
      (∀ f ∈ IdentityBundle.fieldsOf sp ep name a, f.2.length < 2 ^ 32) →
      (∀ f ∈ IdentityBundle.fieldsOf sp' ep' name' a', f.2.length < 2 ^ 32) →
      IdentityBundle.signingInput
          (IdentityBundle.writeBody issued (IdentityBundle.fieldsOf sp ep name a)) =
        IdentityBundle.signingInput
          (IdentityBundle.writeBody issued' (IdentityBundle.fieldsOf sp' ep' name' a')) →
      sp = sp' ∧ ep = ep' ∧ name = name' ∧ a = a' ∧ issued = issued' := by
  refine ⟨fun s t => Statement.kind_eq_of_bytes_eq, fun s t => Statement.eq_of_bytes_eq, ?_, ?_⟩
  · intro r r' hr hr' h
    exact Chat.writeBody_inj hr hr' (List.append_cancel_left h)
  · intro sp sp' ep ep' name name' a a' issued issued' hfs hfs' h
    obtain ⟨hissued, hfields⟩ := IdentityBundle.writeBody_inj hfs hfs' (List.append_cancel_left h)
    obtain ⟨hsp, hep, hname, ha⟩ := IdentityBundle.fieldsOf_inj hfields
    exact ⟨hsp, hep, hname, ha, hissued⟩

/-- A text that two people wrote to each other. -/
def sampleText (text : Bytes) : Chat.Record where
  conversationId := List.replicate 16 1
  messageId := List.replicate 16 2
  sender := List.replicate 32 3
  recipientsHash := List.replicate 32 4
  sentAt := 100
  type := .text
  payload := text

/-- A byte that moves to the next field, another text and a name that is left out are told apart. -/
theorem signed_bytes_determine_sample :
    (Statement.register [1] [] [] []).bytes ≠ (Statement.register [] [1] [] []).bytes ∧
      Chat.signingInput (Chat.writeBody (sampleText [5])) ≠
        Chat.signingInput (Chat.writeBody (sampleText [6])) ∧
      IdentityBundle.signingInput
          (IdentityBundle.writeBody 100 (IdentityBundle.fieldsOf [1] [2] [3] ⟨[], [], []⟩)) ≠
        IdentityBundle.signingInput
          (IdentityBundle.writeBody 100 (IdentityBundle.fieldsOf [1] [2] [] ⟨[3], [], []⟩)) := by
  obtain ⟨-, hfields, hrecords, hbundles⟩ := signed_bytes_determine
  refine ⟨fun h => ?_, fun h => ?_, fun h => ?_⟩
  · exact absurd (hfields _ _ (by unfold Statement.Sized; decide) (by unfold Statement.Sized; decide) h)
      (by simp)
  · exact absurd (hrecords _ _ (by decide) (by decide) h) (by decide)
  · exact absurd (hbundles _ _ _ _ _ _ _ _ _ _ (by decide) (by decide) h).2.2.1 (by decide)

def zeros (n : ℕ) : Bytes := List.replicate n 0

theorem zeros_append (m n : ℕ) : zeros m ++ zeros n = zeros (m + n) :=
  List.replicate_append_replicate

theorem writeBlob_zeros {n : ℕ} (hn : UInt32.ofNat n = 0) : writeBlob (zeros n) = zeros (4 + n) := by
  have hlen : (zeros n).length = n := List.length_replicate
  rw [writeBlob, hlen, hn, ← zeros_append]
  rfl

/-- Beyond 32 bits a field can pass for the one after it: 4 GiB of zeros as the relay's ID and no
mailbox ID give the same bytes as no relay ID and 4 GiB of zeros as the mailbox ID. -/
theorem register_fields_collide :
    Statement.register (zeros (2 ^ 32)) [] [] [] ≠ Statement.register [] (zeros (2 ^ 32)) [] [] ∧
      (Statement.register (zeros (2 ^ 32)) [] [] []).bytes =
        (Statement.register [] (zeros (2 ^ 32)) [] []).bytes := by
  have hn : UInt32.ofNat (2 ^ 32) = 0 := rfl
  have hempty : writeBlob [] = zeros 4 := rfl
  constructor
  · intro h
    have hnil : zeros (2 ^ 32) = [] := (Statement.register.inj h).1
    exact absurd ((List.replicate_eq_nil_iff 0).1 hnil) (by decide)
  · have hswap : writeBlob (zeros (2 ^ 32)) ++ writeBlob [] =
        writeBlob [] ++ writeBlob (zeros (2 ^ 32)) := by
      rw [writeBlob_zeros hn, hempty, zeros_append, zeros_append, Nat.add_comm]
    simp only [Statement.bytes, registerSigningInput, List.append_assoc]
    rw [← List.append_assoc (writeBlob (zeros (2 ^ 32))), hswap, List.append_assoc]

/-! ## Chats and recipients -/

namespace Chat

variable {C : ChatCrypto}

/-- What the ID of the chat between two people is the start of a hash of. -/
def conversationInput (a b : Bytes) : Bytes :=
  let low := if bytesLe b a then b else a
  let high := if bytesLe b a then a else b
  writeString conversationLabel ++ writeBlob low ++ writeBlob high

/-- What the hash of the recipients is a hash of. -/
def recipientsInput (fingerprints : List Bytes) : Bytes :=
  let sorted := fingerprints.insertionSort (bytesLe · ·)
  writeString recipientsLabel ++ writeU32 (UInt32.ofNat sorted.length) ++ (sorted.map writeBlob).flatten

theorem conversationIdFor_eq (a b : Bytes) :
    conversationIdFor C a b = (C.sha256 (conversationInput a b)).1.take idBytes := rfl

theorem conversationInput_comm (a b : Bytes) : conversationInput a b = conversationInput b a := by
  unfold conversationInput
  by_cases hba : bytesLe b a = true
  · by_cases hab : bytesLe a b = true
    · rw [bytesLe_antisymm hab hba]
    · rw [if_pos hba, if_pos hba, if_neg hab, if_neg hab]
  · have hab : bytesLe a b = true := (bytesLe_total a b).resolve_right hba
    rw [if_neg hba, if_neg hba, if_pos hab, if_pos hab]

theorem conversationInput_inj {a b a' b' : Digest} (h : conversationInput a b = conversationInput a' b') :
    a = a' ∧ b = b' ∨ a = b' ∧ b = a' := by
  have hfields : ∀ {x y x' y' : Digest},
      writeString conversationLabel ++ writeBlob x.1 ++ writeBlob y.1 =
        writeString conversationLabel ++ writeBlob x'.1 ++ writeBlob y'.1 → x = x' ∧ y = y' := by
    intro x y x' y' h
    rw [List.append_assoc, List.append_assoc] at h
    obtain ⟨hx, hy⟩ := writeBlob_append_inj_of_length_eq (x.2.trans x'.2.symm) (List.append_cancel_left h)
    exact ⟨Subtype.ext hx, Subtype.ext (Statement.writeBlob_inj hy)⟩
  unfold conversationInput at h
  split_ifs at h
  · exact .inl (hfields h).symm
  · exact .inr (hfields h).symm
  · exact .inr (hfields h)
  · exact .inl (hfields h)

theorem recipientsInput_inj {l l' : List Bytes} (hl : ∀ f ∈ l, f.length < 2 ^ 32)
    (hl' : ∀ f ∈ l', f.length < 2 ^ 32) (h : recipientsInput l = recipientsInput l') : l.Perm l' := by
  rw [recipientsInput, recipientsInput, List.append_assoc, List.append_assoc] at h
  obtain ⟨-, hblobs⟩ := writeU32_append_inj (List.append_cancel_left h)
  rw [← insertionSort_eq_iff_perm]
  refine Statement.writeBlobs_inj (fun f hf => ?_) (fun f hf => ?_) hblobs
  · exact hl f ((List.mem_insertionSort _).1 hf)
  · exact hl' f ((List.mem_insertionSort _).1 hf)

/-- Two people have one chat ID, whoever of them takes it, and different pairs have different ones; the
hash of the recipients says who they are and not in which order. The hashes of the inputs compared are
different ones, and so are the starts of them that are taken as IDs. -/
theorem ids_identify (C : ChatCrypto) :
    (∀ a b, conversationIdFor C a b = conversationIdFor C b a) ∧
    (∀ a b a' b' : Digest,
      Set.InjOn (fun x => (C.sha256 x).1.take idBytes) {conversationInput a b, conversationInput a' b'} →
      (conversationIdFor C a b = conversationIdFor C a' b' ↔ a = a' ∧ b = b' ∨ a = b' ∧ b = a')) ∧
    ∀ l l' : List Digest,
      Set.InjOn C.sha256 {recipientsInput (l.map (·.1)), recipientsInput (l'.map (·.1))} →
      (recipientsHashFor C (l.map (·.1)) = recipientsHashFor C (l'.map (·.1)) ↔ l.Perm l') := by
  have hcomm : ∀ a b, conversationIdFor C a b = conversationIdFor C b a := fun a b => by
    rw [conversationIdFor_eq, conversationIdFor_eq, conversationInput_comm]
  refine ⟨hcomm, fun a b a' b' hsha => ⟨fun h => ?_, ?_⟩, fun l l' hsha => ⟨fun h => ?_, fun h => ?_⟩⟩
  · exact conversationInput_inj (hsha (.inl rfl) (.inr rfl) h)
  · rintro (⟨rfl, rfl⟩ | ⟨rfl, rfl⟩)
    · rfl
    · exact hcomm _ _
  · have hsize : ∀ (l : List Digest), ∀ f ∈ l.map (·.1), f.length < 2 ^ 32 := by
      intro l f hf
      obtain ⟨d, -, rfl⟩ := List.mem_map.1 hf
      rw [d.2]
      decide
    have hinput := hsha (.inl rfl) (.inr rfl) (Subtype.ext h)
    exact (List.map_perm_map_iff Subtype.val_injective).1 (recipientsInput_inj (hsize l) (hsize l') hinput)
  · exact recipientsHashFor_perm (h.map _)

/-- The end of a byte string in the place of its hash. -/
def endCrypto : ChatCrypto where
  sha256 x := ⟨(x.reverse ++ List.replicate 32 0).take 32, by simp [Relay.hashBytes]⟩
  sign _ _ := .ok []
  verify _ _ _ := true
  sigPublicKeySize := 2
  kemPublicKeySize := 2

/-- Someone has different IDs for the chats with two others. -/
theorem ids_identify_sample :
    Set.InjOn (fun x => (endCrypto.sha256 x).1.take idBytes)
        {conversationInput (byteSum [1]) (byteSum [2]), conversationInput (byteSum [1]) (byteSum [3])} ∧
      conversationIdFor endCrypto (byteSum [1]) (byteSum [2]) ≠
        conversationIdFor endCrypto (byteSum [1]) (byteSum [3]) := by
  have hsha : Set.InjOn (fun x => (endCrypto.sha256 x).1.take idBytes)
      {conversationInput (byteSum [1]) (byteSum [2]), conversationInput (byteSum [1]) (byteSum [3])} :=
    Set.injOn_pair.2 fun h => absurd h (by decide +kernel)
  refine ⟨hsha, fun h => ?_⟩
  rcases ((ids_identify endCrypto).2.1 _ _ _ _ hsha).1 h with ⟨-, heq⟩ | ⟨heq, -⟩
  · exact absurd heq (by decide)
  · exact absurd heq (by decide)

end Chat

end PqSuite
