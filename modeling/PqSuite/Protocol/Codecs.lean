import PqSuite.Protocol.FileHeader
import PqSuite.Protocol.Files
import PqSuite.Protocol.Readers
import PqSuite.Server.Keyrings

/-!
# Encoders and decoders of every message

For each message of `relay_protocol.cpp` and of the file protocol: the limits its decoder enforces
(`Valid`, where the type of the message does not carry them already), and that the decoder returns a
message exactly for the encoding of it. A decoder is a sequence of exact readers, so its equation is
rewritten field by field into one about the bytes.
-/

namespace PqSuite.Relay

open Reader

/-! ## Fields -/

section fields

variable {β : Type} {m : β} {bytes rest : Bytes}

theorem exact_fixedBlob {size : ℕ} (hsize : size < 2 ^ 32) :
    Exact (fixedBlob · size) (·.length = size) writeBlob := by
  intro bytes b rest
  change fixedBlob bytes size = _ ↔ _
  simp only [fixedBlob, readBlob_bind hsize, Option.ite_none_left_eq_some, not_not,
    Option.some.injEq, Prod.mk.injEq]
  constructor
  · rintro ⟨b, r, -, rfl, hlen, rfl, rfl⟩
    exact ⟨hlen, rfl⟩
  · rintro ⟨hlen, rfl⟩
    exact ⟨b, rest, hlen.le, rfl, hlen, rfl, rfl⟩

theorem fixedBlob_bind {size : ℕ} (hsize : size < 2 ^ 32) {f : Bytes × Bytes → Option β} :
    (fixedBlob bytes size >>= f) = some m ↔
      ∃ b rest, b.length = size ∧ bytes = writeBlob b ++ rest ∧ f (b, rest) = some m :=
  (exact_fixedBlob hsize).bind_eq_some

theorem exact_fixedDigest : Exact fixedDigest (fun _ => True) (fun d => writeBlob d.1) := by
  intro bytes d rest
  change fixedDigest bytes = _ ↔ _
  simp only [fixedDigest, readBlob_bind (show hashBytes < 2 ^ 32 by decide),
    Option.dite_none_right_eq_some, Option.some.injEq, Prod.mk.injEq, true_and]
  constructor
  · rintro ⟨b, r, -, rfl, hlen, rfl, rfl⟩
    rfl
  · rintro rfl
    exact ⟨d.1, rest, d.2.le, rfl, d.2, rfl, rfl⟩

theorem fixedDigest_bind {f : Digest × Bytes → Option β} :
    (fixedDigest bytes >>= f) = some m ↔
      ∃ d rest, bytes = writeBlob d.1 ++ rest ∧ f (d, rest) = some m :=
  exact_fixedDigest.bind_eq_some.trans (by simp only [true_and])

theorem atEnd_eq_some {a : β} :
    (if rest ≠ [] then none else pure a) = some m ↔ rest = [] ∧ a = m := by
  simp only [Option.ite_none_left_eq_some, not_not, Option.pure_def, Option.some.injEq]

/-- A flag is written as 0 or 1, and no other number is taken for one. -/
theorem eq_flag_iff {flag : UInt32} {b : Bool} :
    flag = (if b then 1 else 0) ↔ ¬flag > 1 ∧ decide (flag = 1) = b := by
  have hle : ¬flag > 1 ↔ flag = 0 ∨ flag = 1 := by
    rw [gt_iff_lt, UInt32.lt_iff_toNat_lt, ← UInt32.toNat_inj, ← UInt32.toNat_inj]
    simp only [UInt32.toNat_ofNat, Nat.reduceMod, Nat.reducePow]
    omega
  rw [hle]
  by_cases hflag : flag = 1
  · subst hflag
    cases b <;> decide
  · cases b <;> simp [hflag]

/-- The number written before the items of a list, as far as it fits. -/
theorem toNat_count {n max : ℕ} (hn : n ≤ max) (hmax : max < 2 ^ 32) :
    (UInt32.ofNat n).toNat = n := by
  rw [UInt32.toNat_ofNat', Nat.mod_eq_of_lt (by omega)]

end fields

/-! ## Items of lists -/

section items

variable {β : Type} {m : β} {bytes rest : Bytes} {n : ℕ}

theorem readFixedBlobs_eq (size n : ℕ) : readFixedBlobs size n = many n (fixedBlob · size) := by
  induction n with
  | zero => rfl
  | succ n ih =>
    funext bytes
    rw [readFixedBlobs, ih]
    rfl

theorem readFixedBlobs_bind {size : ℕ} (hsize : size < 2 ^ 32) {f : List Bytes × Bytes → Option β} :
    (readFixedBlobs size n bytes >>= f) = some m ↔
      ∃ ids rest, (ids.length = n ∧ ∀ id ∈ ids, id.length = size) ∧
        bytes = ids.flatMap writeBlob ++ rest ∧ f (ids, rest) = some m := by
  rw [readFixedBlobs_eq]
  exact ((exact_fixedBlob hsize).many n).bind_eq_some

theorem readDigests_eq (n : ℕ) : readDigests n = many n fixedDigest := by
  induction n with
  | zero => rfl
  | succ n ih =>
    funext bytes
    rw [readDigests, ih]
    rfl

theorem readDigests_bind {f : List Digest × Bytes → Option β} :
    (readDigests n bytes >>= f) = some m ↔
      ∃ hs rest, hs.length = n ∧ bytes = hs.flatMap (fun h => writeBlob h.1) ++ rest ∧
        f (hs, rest) = some m := by
  rw [readDigests_eq]
  exact (exact_fixedDigest.many n).bind_eq_some.trans (by simp only [implies_true, and_true])

def readSignature (bytes : Bytes) : Option (ArchiveSignature × Bytes) := do
  let (keyHash, rest) ← fixedDigest bytes
  let (signature, rest) ← readBlob rest maxKeyBlob
  if signature = [] then none else return (⟨keyHash, signature⟩, rest)

def writeSignature (s : ArchiveSignature) : Bytes := writeBlob s.keyHash.1 ++ writeBlob s.signature

def ArchiveSignature.Valid (s : ArchiveSignature) : Prop :=
  s.signature ≠ [] ∧ s.signature.length ≤ maxKeyBlob

theorem exact_readSignature : Exact readSignature ArchiveSignature.Valid writeSignature := by
  intro bytes s rest
  change readSignature bytes = _ ↔ _
  simp (disch := decide) only [readSignature, fixedDigest_bind, readBlob_bind,
    Option.ite_none_left_eq_some, Option.pure_def, Option.some.injEq, Prod.mk.injEq]
  constructor
  · rintro ⟨d, _, rfl, b, _, hb, rfl, hne, rfl, rfl⟩
    exact ⟨⟨hne, hb⟩, by simp only [writeSignature, List.append_assoc]⟩
  · rintro ⟨⟨hne, hb⟩, rfl⟩
    exact ⟨s.keyHash, _, List.append_assoc .., s.signature, rest, hb, rfl, hne, rfl, rfl⟩

theorem readSignatures_eq (n : ℕ) : readSignatures n = many n readSignature := by
  induction n with
  | zero => rfl
  | succ n ih =>
    funext bytes
    rw [readSignatures, ih]
    change _ = readSignature bytes >>= _
    simp only [readSignature, bind_assoc]
    congr! 4
    split_ifs <;> rfl

theorem readSignatures_bind {f : List ArchiveSignature × Bytes → Option β} :
    (readSignatures n bytes >>= f) = some m ↔
      ∃ ss rest, (ss.length = n ∧ ∀ s ∈ ss, s.Valid) ∧ bytes = ss.flatMap writeSignature ++ rest ∧
        f (ss, rest) = some m := by
  rw [readSignatures_eq]
  exact (exact_readSignature.many n).bind_eq_some

/-- One prekey of an upload, which may not be empty. -/
def readPrekey (bytes : Bytes) : Option (PrekeyEntry × Bytes) := do
  let (id, rest) ← fixedBlob bytes prekeyIdBytes
  let (flag, rest) ← readU32 rest
  let (blob, rest) ← readBlob rest maxPrekeyBytes
  if flag > 1 ∨ blob = [] then none else return (⟨id, flag = 1, blob⟩, rest)

def writePrekey (p : PrekeyEntry) : Bytes :=
  writeBlob p.id ++ writeU32 (if p.lastResort then 1 else 0) ++ writeBlob p.blob

def PrekeyEntry.Valid (p : PrekeyEntry) : Prop :=
  p.id.length = prekeyIdBytes ∧ p.blob ≠ [] ∧ p.blob.length ≤ maxPrekeyBytes

theorem exact_readPrekey : Exact readPrekey PrekeyEntry.Valid writePrekey := by
  intro bytes p rest
  change readPrekey bytes = _ ↔ _
  simp (disch := decide) only [readPrekey, fixedBlob_bind, readU32_bind, readBlob_bind,
    Option.ite_none_left_eq_some, not_or, Option.pure_def, Option.some.injEq, Prod.mk.injEq]
  constructor
  · rintro ⟨id, _, hid, rfl, flag, _, rfl, b, _, hb, rfl, ⟨hflag, hne⟩, rfl, rfl⟩
    refine ⟨⟨hid, hne, hb⟩, ?_⟩
    simp only [writePrekey, ← eq_flag_iff.2 ⟨hflag, rfl⟩, List.append_assoc]
  · rintro ⟨⟨hid, hne, hb⟩, rfl⟩
    obtain ⟨hflag, hlast⟩ := eq_flag_iff.1 (rfl : (if p.lastResort then (1 : UInt32) else 0) = _)
    refine ⟨p.id, _, hid, by simp only [writePrekey, List.append_assoc], _, _, rfl, p.blob, rest, hb,
      rfl, ⟨hflag, hne⟩, ?_, rfl⟩
    rw [hlast]

theorem readPrekeys_eq (n : ℕ) : readPrekeys n = many n readPrekey := by
  induction n with
  | zero => rfl
  | succ n ih =>
    funext bytes
    rw [readPrekeys, ih]
    change _ = readPrekey bytes >>= _
    simp only [readPrekey, bind_assoc]
    congr! 6
    split_ifs <;> rfl

theorem readPrekeys_bind {f : List PrekeyEntry × Bytes → Option β} :
    (readPrekeys n bytes >>= f) = some m ↔
      ∃ ps rest, (ps.length = n ∧ ∀ p ∈ ps, p.Valid) ∧ bytes = ps.flatMap writePrekey ++ rest ∧
        f (ps, rest) = some m := by
  rw [readPrekeys_eq]
  exact (exact_readPrekey.many n).bind_eq_some

theorem exact_readUnused :
    Exact readUnused (fun _ => True) (fun u => writeBlob u.1.1 ++ writeU64 u.2) := by
  intro bytes u rest
  change readUnused bytes = _ ↔ _
  simp only [readUnused, fixedDigest_bind, readU64_bind, Option.pure_def, Option.some.injEq,
    Prod.mk.injEq, true_and]
  constructor
  · rintro ⟨d, _, rfl, t, _, rfl, rfl, rfl⟩
    rw [List.append_assoc]
  · rintro rfl
    exact ⟨u.1, _, List.append_assoc .., u.2, rest, rfl, rfl, rfl⟩

theorem manyUnused_bind {f : List (Digest × UInt64) × Bytes → Option β} :
    (many n readUnused bytes >>= f) = some m ↔
      ∃ us rest, us.length = n ∧
        bytes = us.flatMap (fun u => writeBlob u.1.1 ++ writeU64 u.2) ++ rest ∧
        f (us, rest) = some m :=
  (exact_readUnused.many n).bind_eq_some.trans (by simp only [implies_true, and_true])

theorem exact_readJoined :
    Exact readJoined (·.1.length = mailboxIdBytes) (fun j => writeBlob j.1 ++ writeU64 j.2) := by
  intro bytes j rest
  change readJoined bytes = _ ↔ _
  simp (disch := decide) only [readJoined, fixedBlob_bind, readU64_bind, Option.pure_def,
    Option.some.injEq, Prod.mk.injEq]
  constructor
  · rintro ⟨id, _, hid, rfl, t, _, rfl, rfl, rfl⟩
    exact ⟨hid, by rw [List.append_assoc]⟩
  · rintro ⟨hid, rfl⟩
    exact ⟨j.1, _, hid, List.append_assoc .., j.2, rest, rfl, rfl, rfl⟩

theorem manyJoined_bind {f : List (Bytes × UInt64) × Bytes → Option β} :
    (many n readJoined bytes >>= f) = some m ↔
      ∃ js rest, (js.length = n ∧ ∀ j ∈ js, j.1.length = mailboxIdBytes) ∧
        bytes = js.flatMap (fun j => writeBlob j.1 ++ writeU64 j.2) ++ rest ∧
        f (js, rest) = some m :=
  (exact_readJoined.many n).bind_eq_some

end items

/-! ## Sessions and mailboxes -/

section messages

variable {bytes : Bytes}

def Hello.Valid (m : Hello) : Prop := m.clientNonce.length = nonceBytes

theorem decodeHello_eq_some {m : Hello} :
    decodeHello bytes = some m ↔ m.Valid ∧ encodeHello m = bytes := by
  simp (disch := decide) only [decodeHello, readU32_bind, fixedBlob_bind, atEnd_eq_some]
  grind [encodeHello, Hello.Valid]

def HelloReply.Valid (m : HelloReply) : Prop :=
  m.relayPublicKey.length ≤ maxKeyBlob ∧ m.signature.length ≤ maxKeyBlob ∧
    m.authChallenge.length = nonceBytes

theorem decodeHelloReply_eq_some {m : HelloReply} :
    decodeHelloReply bytes = some m ↔ m.Valid ∧ encodeHelloReply m = bytes := by
  simp (disch := decide) only [decodeHelloReply, readBlob_bind, fixedBlob_bind, atEnd_eq_some]
  grind [encodeHelloReply, HelloReply.Valid]

def Register.Valid (m : Register) : Prop :=
  m.invite.length = inviteBytes ∧ m.mailboxId.length = mailboxIdBytes ∧
    m.accessPublicKey.length ≤ maxKeyBlob ∧ m.signature.length ≤ maxKeyBlob

theorem decodeRegister_eq_some {m : Register} :
    decodeRegister bytes = some m ↔ m.Valid ∧ encodeRegister m = bytes := by
  simp (disch := decide) only [decodeRegister, fixedBlob_bind, fixedDigest_bind, readBlob_bind,
    atEnd_eq_some]
  grind [encodeRegister, Register.Valid]

def Auth.Valid (m : Auth) : Prop :=
  m.mailboxId.length = mailboxIdBytes ∧ m.signature.length ≤ maxKeyBlob

theorem decodeAuth_eq_some {m : Auth} :
    decodeAuth bytes = some m ↔ m.Valid ∧ encodeAuth m.mailboxId m.signature = bytes := by
  simp (disch := decide) only [decodeAuth, fixedBlob_bind, readBlob_bind, atEnd_eq_some]
  grind [encodeAuth, Auth.Valid]

def Deposit.Valid (m : Deposit) : Prop :=
  m.mailboxId.length = mailboxIdBytes ∧ m.sendToken.length = sendTokenBytes ∧
    m.envelope.length ≤ maxEnvelopeBytes

theorem decodeDeposit_eq_some {m : Deposit} :
    decodeDeposit bytes = some m ↔ m.Valid ∧ encodeDeposit m = bytes := by
  simp (disch := decide) only [decodeDeposit, fixedBlob_bind, readU32_bind, readBlob_bind,
    atEnd_eq_some]
  grind [encodeDeposit, Deposit.Valid]

def StoredEnvelope.Valid (m : StoredEnvelope) : Prop :=
  m.id.length = envelopeIdBytes ∧ m.envelope.length ≤ maxEnvelopeBytes

theorem decodeStoredEnvelope_eq_some {m : StoredEnvelope} :
    decodeStoredEnvelope bytes = some m ↔ m.Valid ∧ encodeStoredEnvelope m = bytes := by
  simp (disch := decide) only [decodeStoredEnvelope, fixedBlob_bind, readU64_bind, fixedDigest_bind,
    readBlob_bind, atEnd_eq_some]
  grind [encodeStoredEnvelope, StoredEnvelope.Valid]

theorem decodeHashOp_eq_some {h : Digest} :
    decodeHashOp bytes = some h ↔ encodeHashOp h.1 = bytes := by
  simp only [decodeHashOp, fixedDigest_bind, atEnd_eq_some]
  grind [encodeHashOp]

def ValidIds (ids : List Bytes) : Prop :=
  ids.length ≤ maxAckIds ∧ ∀ id ∈ ids, id.length = envelopeIdBytes

theorem decodeIdList_eq_some {ids : List Bytes} :
    decodeIdList bytes = some ids ↔ ValidIds ids ∧ encodeIdList ids = bytes := by
  simp (disch := decide) only [decodeIdList, readU32_bind, readFixedBlobs_bind,
    Option.ite_none_left_eq_some, not_lt, gt_iff_lt, not_not, Option.pure_def, Option.some.injEq]
  constructor
  · rintro ⟨count, _, rfl, hmax, ids, _, ⟨hlen, hids⟩, rfl, rfl, rfl⟩
    refine ⟨⟨hlen ▸ hmax, hids⟩, ?_⟩
    rw [encodeIdList, hlen, UInt32.ofNat_toNat, List.append_nil]
  · rintro ⟨⟨hmax, hids⟩, rfl⟩
    have hcount := toNat_count hmax (by decide)
    exact ⟨_, _, rfl, hcount.symm ▸ hmax, ids, [], ⟨hcount.symm, hids⟩, (List.append_nil _).symm, rfl,
      rfl⟩

def InviteStatus.Valid (m : InviteStatus) : Prop :=
  m.unused.length ≤ maxInviteStatusEntries ∧ m.joined.length ≤ maxInviteStatusEntries ∧
    ∀ j ∈ m.joined, j.1.length = mailboxIdBytes

theorem decodeInviteStatus_eq_some {m : InviteStatus} :
    decodeInviteStatus bytes = some m ↔ m.Valid ∧ encodeInviteStatus m = bytes := by
  simp only [decodeInviteStatus, readU32_bind, Option.ite_none_left_eq_some, manyUnused_bind,
    manyJoined_bind, not_lt, gt_iff_lt, not_not, Option.pure_def, Option.some.injEq]
  constructor
  · rintro ⟨u, _, rfl, t, _, rfl, n, _, rfl, hn, us, _, hus, rfl, k, _, rfl, hk, js, _, ⟨hjs, hids⟩,
      rfl, rfl, rfl⟩
    refine ⟨⟨hus ▸ hn, hjs ▸ hk, hids⟩, ?_⟩
    simp only [encodeInviteStatus, hus, hjs, UInt32.ofNat_toNat, List.append_assoc, List.append_nil]
  · rintro ⟨⟨hus, hjs, hids⟩, rfl⟩
    have hn := toNat_count hus (by decide)
    have hk := toNat_count hjs (by decide)
    refine ⟨m.maxUnused, _, by simp only [encodeInviteStatus, List.append_assoc], m.maxTotal, _, rfl,
      _, _, rfl, hn.symm ▸ hus, m.unused, _, hn.symm, rfl, _, _, rfl,
      hk.symm ▸ hjs, m.joined, [], ⟨hk.symm, hids⟩, (List.append_nil _).symm, rfl, rfl⟩

/-! ## Archives -/

def ArchiveCreate.Valid (m : ArchiveCreate) : Prop :=
  m.archiveId.length = archiveIdBytes ∧ 1 ≤ m.joinTokenHashes.length ∧
    m.joinTokenHashes.length ≤ maxArchiveMembers

theorem decodeArchiveCreate_eq_some {m : ArchiveCreate} :
    decodeArchiveCreate bytes = some m ↔ m.Valid ∧ encodeArchiveCreate m = bytes := by
  simp (disch := decide) only [decodeArchiveCreate, fixedBlob_bind, readU32_bind, readDigests_bind,
    Option.ite_none_left_eq_some, not_or, not_lt, gt_iff_lt, not_not, Option.pure_def,
    Option.some.injEq]
  constructor
  · rintro ⟨id, _, hid, rfl, count, _, rfl, ⟨hmin, hmax⟩, hs, _, hlen, rfl, rfl, rfl⟩
    refine ⟨⟨hid, hlen ▸ hmin, hlen ▸ hmax⟩, ?_⟩
    simp only [encodeArchiveCreate, hlen, UInt32.ofNat_toNat, List.append_assoc, List.append_nil]
  · rintro ⟨⟨hid, hmin, hmax⟩, rfl⟩
    have hcount := toNat_count hmax (by decide)
    exact ⟨m.archiveId, _, hid, List.append_assoc .., _, _, rfl,
      ⟨hcount.symm ▸ hmin, hcount.symm ▸ hmax⟩, m.joinTokenHashes, [], hcount.symm,
      (List.append_nil _).symm, rfl, rfl⟩

def ArchiveJoin.Valid (m : ArchiveJoin) : Prop :=
  m.archiveId.length = archiveIdBytes ∧ m.joinToken.length = joinTokenBytes ∧
    m.publicKey.length ≤ maxKeyBlob ∧ m.signature.length ≤ maxKeyBlob

theorem decodeArchiveJoin_eq_some {m : ArchiveJoin} :
    decodeArchiveJoin bytes = some m ↔ m.Valid ∧ encodeArchiveJoin m = bytes := by
  simp (disch := decide) only [decodeArchiveJoin, fixedBlob_bind, readBlob_bind, atEnd_eq_some]
  grind [encodeArchiveJoin, ArchiveJoin.Valid]

def ArchiveAuth.Valid (m : ArchiveAuth) : Prop :=
  m.archiveId.length = archiveIdBytes ∧ m.signature.length ≤ maxKeyBlob

theorem decodeArchiveAuth_eq_some {m : ArchiveAuth} :
    decodeArchiveAuth bytes = some m ↔ m.Valid ∧ encodeArchiveAuth m = bytes := by
  simp (disch := decide) only [decodeArchiveAuth, fixedBlob_bind, fixedDigest_bind, readBlob_bind,
    atEnd_eq_some]
  grind [encodeArchiveAuth, ArchiveAuth.Valid]

theorem decodeArchiveAppend_eq_some {m : ArchiveAppend} :
    decodeArchiveAppend bytes = some m ↔ encodeArchiveAppend m = bytes := by
  simp (disch := decide) only [decodeArchiveAppend, readU64_bind, fixedDigest_bind, readBlob_bind,
    Option.dite_none_right_eq_some, Option.pure_def, Option.some.injEq]
  constructor
  · rintro ⟨n, _, rfl, d, _, rfl, c, _, -, rfl, ⟨-, -, rfl⟩, rfl⟩
    simp only [encodeArchiveAppend, List.append_assoc, List.append_nil]
  · rintro rfl
    exact ⟨m.expectedNumber, _, List.append_assoc .., m.expectedHash, _, rfl, m.ciphertext, [],
      m.ciphertext_size, (List.append_nil _).symm, ⟨m.ciphertext_ne_nil, m.ciphertext_size, rfl⟩, rfl⟩

theorem decodeArchiveHead_eq_some {m : ArchiveHead} :
    decodeArchiveHead bytes = some m ↔ encodeArchiveHead m = bytes := by
  simp only [decodeArchiveHead, readU64_bind, fixedDigest_bind, atEnd_eq_some]
  grind [encodeArchiveHead]

def ArchiveFetch.Valid (m : ArchiveFetch) : Prop :=
  1 ≤ m.fromNumber ∧ 1 ≤ m.limit.toNat ∧ m.limit.toNat ≤ maxFetchEntries

theorem decodeArchiveFetch_eq_some {m : ArchiveFetch} :
    decodeArchiveFetch bytes = some m ↔ m.Valid ∧ encodeArchiveFetch m = bytes := by
  simp only [decodeArchiveFetch, readU64_bind, readU32_bind, Option.ite_none_left_eq_some,
    Option.pure_def, Option.some.injEq, not_or, not_lt, gt_iff_lt, not_not, UInt64.not_lt]
  constructor
  · rintro ⟨n, _, rfl, l, _, rfl, ⟨hn, hmin, hmax, rfl⟩, rfl⟩
    exact ⟨⟨hn, hmin, hmax⟩, by simp only [encodeArchiveFetch, List.append_nil]⟩
  · rintro ⟨⟨hn, hmin, hmax⟩, rfl⟩
    exact ⟨_, _, rfl, _, [], (List.append_nil _).symm, ⟨hn, hmin, hmax, rfl⟩, rfl⟩

theorem decodeArchiveEntry_eq_some {m : ArchiveEntry} :
    decodeArchiveEntry bytes = some m ↔
      encodeArchiveEntry m.number m.hash m.ciphertext m.tombstone = bytes := by
  simp (disch := decide) only [decodeArchiveEntry, readU64_bind, fixedDigest_bind, readBlob_bind,
    readU32_bind, Option.ite_none_left_eq_some, Option.dite_none_right_eq_some, Option.pure_def,
    Option.some.injEq, not_or, not_not]
  constructor
  · rintro ⟨n, _, rfl, d, _, rfl, c, _, -, rfl, flag, _, rfl, ⟨hflag, rfl⟩, -, rfl⟩
    simp only [encodeArchiveEntry, ← eq_flag_iff.2 ⟨hflag, rfl⟩, List.append_assoc, List.append_nil]
  · rintro rfl
    obtain ⟨hflag, htomb⟩ := eq_flag_iff.1 (rfl : (if m.tombstone then (1 : UInt32) else 0) = _)
    refine ⟨m.number, _, by simp only [encodeArchiveEntry, List.append_assoc], m.hash, _, rfl,
      m.ciphertext, _, m.ciphertext_size, rfl, _, [], (List.append_nil _).symm, ⟨hflag, rfl⟩,
      ⟨m.ciphertext_size, by rw [htomb]; exact m.empty_iff⟩, ?_⟩
    simp only [htomb]

def ArchiveDelete.Valid (m : ArchiveDelete) : Prop :=
  m.opId.length = opIdBytes ∧ ∀ s ∈ m.signatures, s.Valid

/-- A scope is written as its number, and no other number is taken for one. -/
theorem readScope_bind {β : Type} {m : β} {v : UInt32} {f : DeleteScope → Option β} :
    (if v = 1 then some DeleteScope.chat >>= f
      else if v = 2 then some DeleteScope.entries >>= f else none >>= f) = some m ↔
      ∃ scope : DeleteScope, v = scope.toU32 ∧ f scope = some m := by
  constructor
  · intro h
    split_ifs at h with h1 h2
    · exact ⟨.chat, h1, h⟩
    · exact ⟨.entries, h2, h⟩
    · exact nomatch h
  · rintro ⟨scope, rfl, h⟩
    cases scope with
    | chat | entries => exact h

theorem DeleteScope.length_le_of_allows {scope : DeleteScope} {n : ℕ} (h : scope.allows n = true) :
    n ≤ maxDeleteEntries := by
  cases scope with
  | chat =>
    obtain rfl : n = 0 := by simpa [DeleteScope.allows] using h
    exact Nat.zero_le _
  | entries =>
    have : 1 ≤ n ∧ n ≤ maxDeleteEntries := by simpa [DeleteScope.allows] using h
    exact this.2

theorem encodeArchiveDelete_eq (m : ArchiveDelete) :
    encodeArchiveDelete m = writeU32 m.scope.toU32 ++ writeBlob m.opId ++ writeU64 m.expiresAt ++
      writeU32 (UInt32.ofNat m.entryHashes.length) ++
      m.entryHashes.flatMap (fun h => writeBlob h.1) ++
      writeU32 (UInt32.ofNat m.signatures.length) ++ m.signatures.flatMap writeSignature := rfl

theorem decodeArchiveDelete_eq_some {m : ArchiveDelete} :
    decodeArchiveDelete bytes = some m ↔ m.Valid ∧ encodeArchiveDelete m = bytes := by
  simp (disch := decide) only [decodeArchiveDelete, readU32_bind, fixedBlob_bind, readU64_bind,
    readDigests_bind, readSignatures_bind, readScope_bind, Option.ite_none_left_eq_some,
    Option.dite_none_right_eq_some, Option.pure_def, Option.some.injEq, not_not]
  constructor
  · rintro ⟨v, _, rfl, op, _, hop, rfl, t, _, rfl, n, _, rfl, scope, rfl, hs, _, hn, rfl, k, _, rfl, ss, _,
      ⟨hk, hss⟩, rfl, rfl, hfits, rfl⟩
    refine ⟨⟨hop, hss⟩, ?_⟩
    simp only [encodeArchiveDelete_eq, hn, hk, UInt32.ofNat_toNat, List.append_assoc, List.append_nil]
  · rintro ⟨⟨hop, hss⟩, rfl⟩
    have hn := toNat_count (DeleteScope.length_le_of_allows m.entryHashes_scope) (by decide)
    have hk := toNat_count m.signatures_size.2 (by decide)
    exact ⟨m.scope.toU32, _, by simp only [encodeArchiveDelete_eq, List.append_assoc], m.opId, _, hop, rfl,
      m.expiresAt, _, rfl, _, _, rfl, m.scope, rfl, m.entryHashes, _, hn.symm, rfl, _, _, rfl,
      m.signatures, [], ⟨hk.symm, hss⟩, (List.append_nil _).symm, rfl,
      ⟨m.entryHashes_scope, m.entryHashes_nodup, m.signatures_size, m.keys_nodup⟩, rfl⟩

/-! ## Keyrings and prekeys -/

theorem KeyringChunk.lt_of_wellFormed {c : KeyringChunk} (h : c.wellFormed = true) :
    c.totalSize < 2 ^ 32 ∧ c.index < 2 ^ 32 ∧ c.count < 2 ^ 32 ∧
      c.data.length ≤ keyringChunkBytes := by
  unfold KeyringChunk.wellFormed chunkCount keyringChunkBytes maxKeyringBytes at h
  unfold keyringChunkBytes
  split_ifs at h with hzero hlast <;>
    simp only [Bool.and_eq_true, decide_eq_true_eq] at h
  · obtain ⟨⟨hi, hc⟩, hd⟩ := h
    simp [hzero, hi, hc, hd]
  · omega
  · omega

theorem decodeKeyringChunk_eq_some {c : KeyringChunk} :
    decodeKeyringChunk bytes = some c ↔ c.wellFormed = true ∧ encodeKeyringChunk c = bytes := by
  simp (disch := decide) only [decodeKeyringChunk, readU32_bind, readBlob_bind,
    Option.ite_none_left_eq_some, not_or, not_not, Bool.not_eq_false, Option.pure_def,
    Option.some.injEq]
  constructor
  · rintro ⟨t, _, rfl, i, _, rfl, n, _, rfl, d, _, -, rfl, ⟨rfl, hc⟩, rfl⟩
    refine ⟨hc, ?_⟩
    simp only [encodeKeyringChunk, UInt32.ofNat_toNat, List.append_assoc, List.append_nil]
  · rintro ⟨hc, rfl⟩
    obtain ⟨ht, hi, hn, hd⟩ := c.lt_of_wellFormed hc
    have hback : (⟨(UInt32.ofNat c.totalSize).toNat, (UInt32.ofNat c.index).toNat,
        (UInt32.ofNat c.count).toNat, c.data⟩ : KeyringChunk) = c := by
      simp only [UInt32.toNat_ofNat', Nat.mod_eq_of_lt ht, Nat.mod_eq_of_lt hi, Nat.mod_eq_of_lt hn]
    exact ⟨_, _, by simp only [encodeKeyringChunk, List.append_assoc], _, _, rfl, _, _, rfl, c.data, [],
      hd, (List.append_nil _).symm, ⟨rfl, hback.symm ▸ hc⟩, hback⟩

def PrekeyPut.Valid (m : PrekeyPut) : Prop :=
  m.generation.length = prekeyGenerationBytes ∧ m.wellFormed = true ∧ ∀ p ∈ m.prekeys, p.Valid

theorem encodePrekeyPut_eq (m : PrekeyPut) :
    encodePrekeyPut m = writeU32 (if m.replace then 1 else 0) ++ writeBlob m.generation ++
      writeU32 (UInt32.ofNat m.prekeys.length) ++ m.prekeys.flatMap writePrekey := rfl

theorem decodePrekeyPut_eq_some {m : PrekeyPut} :
    decodePrekeyPut bytes = some m ↔ m.Valid ∧ encodePrekeyPut m = bytes := by
  simp (disch := decide) only [decodePrekeyPut, readU32_bind, fixedBlob_bind, readPrekeys_bind,
    Option.ite_none_left_eq_some, not_or, not_not, not_lt, gt_iff_lt, Bool.not_eq_false,
    Option.pure_def, Option.some.injEq]
  constructor
  · rintro ⟨flag, _, rfl, g, _, hg, rfl, n, _, rfl, ⟨hflag, -⟩, ps, _, ⟨hn, hps⟩, rfl, ⟨rfl, hwell⟩, rfl⟩
    refine ⟨⟨hg, hwell, hps⟩, ?_⟩
    have hwritten := eq_flag_iff.2 ⟨hflag, rfl⟩
    simp only [encodePrekeyPut_eq, hn, ← hwritten, UInt32.ofNat_toNat, List.append_assoc,
      List.append_nil]
  · rintro ⟨⟨hg, hwell, hps⟩, rfl⟩
    obtain ⟨hflag, hreplace⟩ := eq_flag_iff.1 (rfl : (if m.replace then (1 : UInt32) else 0) = _)
    have hsize : m.prekeys.length ≤ maxPrekeysPerPut := by
      simp only [PrekeyPut.wellFormed, decide_eq_true_eq] at hwell
      exact hwell.1
    have hn := toNat_count hsize (by decide)
    refine ⟨_, _, by simp only [encodePrekeyPut_eq, List.append_assoc], m.generation, _, hg, rfl, _, _, rfl,
      ⟨hflag, hn.symm ▸ hsize⟩, m.prekeys, [], ⟨hn.symm, hps⟩, (List.append_nil _).symm, ?_⟩
    simp only [hreplace, hwell, and_self]

def PrekeyTake.Valid (m : PrekeyTake) : Prop :=
  m.mailboxId.length = mailboxIdBytes ∧ m.sendToken.length = sendTokenBytes

theorem decodePrekeyTake_eq_some {m : PrekeyTake} :
    decodePrekeyTake bytes = some m ↔ m.Valid ∧ encodePrekeyTake m = bytes := by
  simp (disch := decide) only [decodePrekeyTake, fixedBlob_bind, atEnd_eq_some]
  grind [encodePrekeyTake, PrekeyTake.Valid]

def PrekeyData.Valid (m : PrekeyData) : Prop := m.blob ≠ [] ∧ m.blob.length ≤ maxPrekeyBytes

theorem decodePrekeyData_eq_some {m : PrekeyData} :
    decodePrekeyData bytes = some m ↔ m.Valid ∧ encodePrekeyData m.lastResort m.blob = bytes := by
  simp (disch := decide) only [decodePrekeyData, readU32_bind, readBlob_bind,
    Option.ite_none_left_eq_some, not_or, not_not, Option.pure_def, Option.some.injEq]
  constructor
  · rintro ⟨flag, _, rfl, b, _, hb, rfl, ⟨hflag, hne, rfl⟩, rfl⟩
    refine ⟨⟨hne, hb⟩, ?_⟩
    simp only [encodePrekeyData, ← eq_flag_iff.2 ⟨hflag, rfl⟩, List.append_nil]
  · rintro ⟨⟨hne, hb⟩, rfl⟩
    obtain ⟨hflag, hlast⟩ := eq_flag_iff.1 (rfl : (if m.lastResort then (1 : UInt32) else 0) = _)
    refine ⟨_, _, rfl, m.blob, [], hb, (List.append_nil _).symm, ⟨hflag, hne, rfl⟩, ?_⟩
    rw [hlast]

def PrekeyStatus.Valid (m : PrekeyStatus) : Prop :=
  m.generation = [] ∨ m.generation.length = prekeyGenerationBytes

theorem decodePrekeyStatus_eq_some {m : PrekeyStatus} :
    decodePrekeyStatus bytes = some m ↔ m.Valid ∧ encodePrekeyStatus m = bytes := by
  simp (disch := decide) only [decodePrekeyStatus, readU32_bind, readBlob_bind,
    Option.ite_none_left_eq_some, not_or, not_and_or, not_not, Option.pure_def, Option.some.injEq]
  constructor
  · rintro ⟨n, _, rfl, flag, _, rfl, g, _, -, rfl, ⟨hflag, hg, rfl⟩, rfl⟩
    refine ⟨hg, ?_⟩
    simp only [encodePrekeyStatus, ← eq_flag_iff.2 ⟨hflag, rfl⟩, List.append_assoc, List.append_nil]
  · rintro ⟨hg, rfl⟩
    obtain ⟨hflag, hlast⟩ := eq_flag_iff.1 (rfl : (if m.lastResort then (1 : UInt32) else 0) = _)
    have hle : m.generation.length ≤ prekeyGenerationBytes := by
      rcases hg with hg | hg
      · simp [hg]
      · exact hg.le
    refine ⟨_, _, List.append_assoc .., _, _, rfl, m.generation, [], hle, (List.append_nil _).symm,
      ⟨hflag, hg, rfl⟩, ?_⟩
    rw [hlast]

/-! ## Attachments -/

def FileBegin.Valid (m : FileBegin) : Prop := m.fileId.length = fileIdBytes

theorem decodeFileBegin_eq_some {m : FileBegin} :
    decodeFileBegin bytes = some m ↔ m.Valid ∧ encodeFileBegin m = bytes := by
  simp (disch := decide) only [decodeFileBegin, fixedBlob_bind, readU64_bind, readU32_bind,
    readDigests_bind, Option.ite_none_left_eq_some, Option.dite_none_right_eq_some, not_not,
    Option.pure_def, Option.some.injEq]
  constructor
  · rintro ⟨id, _, hid, rfl, t, _, rfl, c, _, rfl, k, _, rfl, e, _, rfl, n, _, rfl, hs, _, hn, rfl, rfl,
      hfits, rfl⟩
    refine ⟨hid, ?_⟩
    simp only [encodeFileBegin, hn, UInt32.ofNat_toNat, List.append_assoc, List.append_nil]
  · rintro ⟨hid, rfl⟩
    have hn := toNat_count m.tokens_size.2 (by decide)
    exact ⟨m.fileId, _, hid, by simp only [encodeFileBegin, List.append_assoc], m.totalSize, _, rfl,
      m.chunkSize, _, rfl, m.chunkCount, _, rfl, m.expiresAt, _, rfl, _, _, rfl, m.tokenHashes, [],
      hn.symm, (List.append_nil _).symm, rfl,
      ⟨m.total_size, m.chunk_size, m.chunk_count, m.not_tiny, m.tokens_size, m.tokens_nodup⟩, rfl⟩

def FileChunk.Valid (m : FileChunk) : Prop := m.data ≠ [] ∧ m.data.length ≤ maxFileChunkBytes

theorem decodeFileChunk_eq_some {m : FileChunk} :
    decodeFileChunk bytes = some m ↔ m.Valid ∧ encodeFileChunk m.index m.data = bytes := by
  simp (disch := decide) only [decodeFileChunk, readU32_bind, readBlob_bind,
    Option.ite_none_left_eq_some, not_or, not_not, Option.pure_def, Option.some.injEq]
  constructor
  · rintro ⟨i, _, rfl, d, _, hd, rfl, ⟨hne, rfl⟩, rfl⟩
    exact ⟨⟨hne, hd⟩, by simp only [encodeFileChunk, List.append_nil]⟩
  · rintro ⟨⟨hne, hd⟩, rfl⟩
    exact ⟨_, _, rfl, _, [], hd, (List.append_nil _).symm, ⟨hne, rfl⟩, rfl⟩

def FileDownload.Valid (m : FileDownload) : Prop :=
  m.fileId.length = fileIdBytes ∧ m.token.length = fileTokenBytes

theorem decodeFileDownload_eq_some {m : FileDownload} :
    decodeFileDownload bytes = some m ↔ m.Valid ∧ encodeFileDownload m = bytes := by
  simp (disch := decide) only [decodeFileDownload, fixedBlob_bind, readU32_bind, atEnd_eq_some]
  grind [encodeFileDownload, FileDownload.Valid]

def FileInfo.Valid (m : FileInfo) : Prop :=
  (1 ≤ m.totalSize.toNat ∧ m.totalSize.toNat ≤ maxFileBytes) ∧
    (1 ≤ m.chunkSize.toNat ∧ m.chunkSize.toNat ≤ maxFileChunkBytes) ∧
    m.chunkCount.toNat = (m.totalSize.toNat + m.chunkSize.toNat - 1) / m.chunkSize.toNat

theorem decodeFileInfo_eq_some {m : FileInfo} :
    decodeFileInfo bytes = some m ↔
      m.Valid ∧ encodeFileInfo m.totalSize m.chunkSize m.chunkCount m.expiresAt = bytes := by
  simp only [decodeFileInfo, readU64_bind, readU32_bind, Option.ite_none_left_eq_some, not_or, not_not,
    not_lt, gt_iff_lt, Option.pure_def, Option.some.injEq]
  constructor
  · rintro ⟨t, _, rfl, c, _, rfl, k, _, rfl, e, _, rfl, rfl, ⟨ht, ht', hc, hc', hk⟩, rfl⟩
    refine ⟨⟨⟨ht, ht'⟩, ⟨hc, hc'⟩, hk⟩, ?_⟩
    simp only [encodeFileInfo, List.append_assoc, List.append_nil]
  · rintro ⟨⟨⟨ht, ht'⟩, ⟨hc, hc'⟩, hk⟩, rfl⟩
    exact ⟨m.totalSize, _, by simp only [encodeFileInfo, List.append_assoc], m.chunkSize, _, rfl,
      m.chunkCount, _, rfl, m.expiresAt, [], (List.append_nil _).symm, rfl, ⟨ht, ht', hc, hc', hk⟩, rfl⟩

def FileRedeem.Valid (m : FileRedeem) : Prop :=
  m.fileId.length = fileIdBytes ∧ m.token.length = fileTokenBytes

theorem decodeFileRedeem_eq_some {m : FileRedeem} :
    decodeFileRedeem bytes = some m ↔ m.Valid ∧ encodeFileRedeem m = bytes := by
  simp (disch := decide) only [decodeFileRedeem, fixedBlob_bind, atEnd_eq_some]
  grind [encodeFileRedeem, FileRedeem.Valid]

theorem decodeFileRef_eq_some {fileId : Bytes} :
    decodeFileRef bytes = some fileId ↔
      fileId.length = fileIdBytes ∧ encodeFileRef fileId = bytes := by
  simp (disch := decide) only [decodeFileRef, fixedBlob_bind, atEnd_eq_some]
  grind [encodeFileRef]

def FileStatus.Valid (m : FileStatus) : Prop :=
  m.tokensRedeemed ≤ m.tokensTotal ∧ m.tokensTotal.toNat ≤ maxFileTokens

theorem decodeFileStatus_eq_some {m : FileStatus} :
    decodeFileStatus bytes = some m ↔
      m.Valid ∧ encodeFileStatus m.tokensTotal m.tokensRedeemed m.expiresAt m.ready = bytes := by
  simp only [decodeFileStatus, readU32_bind, readU64_bind, Option.ite_none_left_eq_some, not_or,
    not_not, not_lt, gt_iff_lt, UInt32.not_lt, Option.pure_def, Option.some.injEq]
  constructor
  · rintro ⟨t, _, rfl, r, _, rfl, e, _, rfl, flag, _, rfl, ⟨hflag, hr, ht, rfl⟩, rfl⟩
    refine ⟨⟨hr, ht⟩, ?_⟩
    simp only [encodeFileStatus, ← eq_flag_iff.2 ⟨UInt32.not_lt.2 hflag, rfl⟩, List.append_assoc,
      List.append_nil]
  · rintro ⟨⟨hr, ht⟩, rfl⟩
    obtain ⟨hflag, hready⟩ := eq_flag_iff.1 (rfl : (if m.ready then (1 : UInt32) else 0) = _)
    refine ⟨m.tokensTotal, _, by simp only [encodeFileStatus, List.append_assoc], m.tokensRedeemed, _,
      rfl, m.expiresAt, _, rfl, _, [], (List.append_nil _).symm, ⟨UInt32.not_lt.1 hflag, hr, ht, rfl⟩, ?_⟩
    rw [hready]

end messages

end PqSuite.Relay

/-! ## The file protocol -/

namespace PqSuite.FileProtocol

open Reader Relay

variable {bytes : Bytes}

def FileHeader.Valid (h : FileHeader) : Prop :=
  h.kemCiphertext.length ≤ maxKemCiphertextSize ∧ h.nonce.length ≤ nonceSize ∧
    h.sealedMetadata.length ≤ maxSealedMetadataSize

theorem deserializeFileHeader_eq_some {h : FileHeader} :
    deserializeFileHeader bytes = some h ↔ h.Valid ∧ serializeFileHeader h = bytes := by
  simp (disch := decide) only [deserializeFileHeader, readU32_bind, readU64_bind, readBlob_bind,
    Option.ite_none_left_eq_some, not_not, Option.pure_def, Option.some.injEq]
  constructor
  · rintro ⟨_, _, rfl, rfl, _, _, rfl, rfl, s, _, rfl, c, _, rfl, t, _, rfl, k, _, hk, rfl, n, _, hn, rfl, d,
      _, hd, rfl, rfl, rfl⟩
    refine ⟨⟨hk, hn, hd⟩, ?_⟩
    simp only [serializeFileHeader, serializeHeaderPublicFields, List.append_assoc, List.append_nil]
  · rintro ⟨⟨hk, hn, hd⟩, rfl⟩
    exact ⟨protocolMagic, _,
      by simp only [serializeFileHeader, serializeHeaderPublicFields, List.append_assoc], rfl,
      protocolVersion, _, rfl, rfl, h.fileSize, _, rfl, h.chunkSize, _, rfl, h.totalChunks, _, rfl,
      h.kemCiphertext, _, hk, rfl, h.nonce, _, hn, rfl, h.sealedMetadata, [], hd,
      (List.append_nil _).symm, rfl, rfl⟩

def FileMetadata.Valid (m : FileMetadata) : Prop :=
  m.filename.length ≤ maxFilenameBytes ∧ m.senderFingerprint.length ≤ maxFingerprintChars ∧
    m.signature.length ≤ maxSignatureSize

theorem deserializeFileMetadata_eq_some {m : FileMetadata} :
    deserializeFileMetadata bytes = some m ↔ m.Valid ∧ serializeFileMetadata m = bytes := by
  simp (disch := decide) only [deserializeFileMetadata, readString, readBlob_bind, atEnd_eq_some]
  grind [serializeFileMetadata, writeString, FileMetadata.Valid]

def FileChunk.Valid (c : FileChunk) : Prop := c.data.length ≤ maxChunkSize + aeadTagSize

theorem deserializeFileChunk_eq_some {c : FileChunk} :
    deserializeFileChunk bytes = some c ↔ c.Valid ∧ serializeFileChunk c = bytes := by
  simp (disch := decide) only [deserializeFileChunk, readU32_bind, readBlob_bind, atEnd_eq_some]
  grind [serializeFileChunk, FileChunk.Valid]

end PqSuite.FileProtocol

/-! ## Every kind of message -/

namespace PqSuite

open Relay FileProtocol

inductive MessageKind where
  | hello
  | helloReply
  | register
  | auth
  | deposit
  | storedEnvelope
  | idList
  | hashOp
  | inviteStatus
  | archiveCreate
  | archiveJoin
  | archiveAuth
  | archiveAppend
  | archiveHead
  | archiveFetch
  | archiveEntry
  | archiveDelete
  | keyringChunk
  | prekeyPut
  | prekeyTake
  | prekeyData
  | prekeyStatus
  | fileBegin
  | fileChunk
  | fileDownload
  | fileInfo
  | fileRedeem
  | fileRef
  | fileStatus
  | transferHeader
  | transferMetadata
  | transferChunk

namespace MessageKind

abbrev Message : MessageKind → Type
  | hello => Hello
  | helloReply => HelloReply
  | register => Register
  | auth => Auth
  | deposit => Deposit
  | storedEnvelope => StoredEnvelope
  | idList => List Bytes
  | hashOp => Digest
  | inviteStatus => InviteStatus
  | archiveCreate => ArchiveCreate
  | archiveJoin => ArchiveJoin
  | archiveAuth => ArchiveAuth
  | archiveAppend => ArchiveAppend
  | archiveHead => ArchiveHead
  | archiveFetch => ArchiveFetch
  | archiveEntry => ArchiveEntry
  | archiveDelete => ArchiveDelete
  | keyringChunk => KeyringChunk
  | prekeyPut => PrekeyPut
  | prekeyTake => PrekeyTake
  | prekeyData => PrekeyData
  | prekeyStatus => PrekeyStatus
  | fileBegin => FileBegin
  | fileChunk => Relay.FileChunk
  | fileDownload => FileDownload
  | fileInfo => FileInfo
  | fileRedeem => FileRedeem
  | fileRef => Bytes
  | fileStatus => FileStatus
  | transferHeader => FileHeader
  | transferMetadata => FileMetadata
  | transferChunk => FileProtocol.FileChunk

def encode : (k : MessageKind) → k.Message → Bytes
  | hello => encodeHello
  | helloReply => encodeHelloReply
  | register => encodeRegister
  | auth => fun m => encodeAuth m.mailboxId m.signature
  | deposit => encodeDeposit
  | storedEnvelope => encodeStoredEnvelope
  | idList => encodeIdList
  | hashOp => fun h => encodeHashOp h.1
  | inviteStatus => encodeInviteStatus
  | archiveCreate => encodeArchiveCreate
  | archiveJoin => encodeArchiveJoin
  | archiveAuth => encodeArchiveAuth
  | archiveAppend => encodeArchiveAppend
  | archiveHead => encodeArchiveHead
  | archiveFetch => encodeArchiveFetch
  | archiveEntry => fun m => encodeArchiveEntry m.number m.hash m.ciphertext m.tombstone
  | archiveDelete => encodeArchiveDelete
  | keyringChunk => encodeKeyringChunk
  | prekeyPut => encodePrekeyPut
  | prekeyTake => encodePrekeyTake
  | prekeyData => fun m => encodePrekeyData m.lastResort m.blob
  | prekeyStatus => encodePrekeyStatus
  | fileBegin => encodeFileBegin
  | fileChunk => fun m => encodeFileChunk m.index m.data
  | fileDownload => encodeFileDownload
  | fileInfo => fun m => encodeFileInfo m.totalSize m.chunkSize m.chunkCount m.expiresAt
  | fileRedeem => encodeFileRedeem
  | fileRef => encodeFileRef
  | fileStatus => fun m =>
    encodeFileStatus m.tokensTotal m.tokensRedeemed m.expiresAt m.ready
  | transferHeader => serializeFileHeader
  | transferMetadata => serializeFileMetadata
  | transferChunk => serializeFileChunk

def decode : (k : MessageKind) → Bytes → Option k.Message
  | hello => decodeHello
  | helloReply => decodeHelloReply
  | register => decodeRegister
  | auth => decodeAuth
  | deposit => decodeDeposit
  | storedEnvelope => decodeStoredEnvelope
  | idList => decodeIdList
  | hashOp => decodeHashOp
  | inviteStatus => decodeInviteStatus
  | archiveCreate => decodeArchiveCreate
  | archiveJoin => decodeArchiveJoin
  | archiveAuth => decodeArchiveAuth
  | archiveAppend => decodeArchiveAppend
  | archiveHead => decodeArchiveHead
  | archiveFetch => decodeArchiveFetch
  | archiveEntry => decodeArchiveEntry
  | archiveDelete => decodeArchiveDelete
  | keyringChunk => decodeKeyringChunk
  | prekeyPut => decodePrekeyPut
  | prekeyTake => decodePrekeyTake
  | prekeyData => decodePrekeyData
  | prekeyStatus => decodePrekeyStatus
  | fileBegin => decodeFileBegin
  | fileChunk => decodeFileChunk
  | fileDownload => decodeFileDownload
  | fileInfo => decodeFileInfo
  | fileRedeem => decodeFileRedeem
  | fileRef => decodeFileRef
  | fileStatus => decodeFileStatus
  | transferHeader => deserializeFileHeader
  | transferMetadata => deserializeFileMetadata
  | transferChunk => deserializeFileChunk

/-- The limits the decoder of the kind enforces, as far as its type does not carry them. -/
def Valid : (k : MessageKind) → k.Message → Prop
  | hello => Hello.Valid
  | helloReply => HelloReply.Valid
  | register => Register.Valid
  | auth => Auth.Valid
  | deposit => Deposit.Valid
  | storedEnvelope => StoredEnvelope.Valid
  | idList => ValidIds
  | hashOp => fun _ => True
  | inviteStatus => InviteStatus.Valid
  | archiveCreate => ArchiveCreate.Valid
  | archiveJoin => ArchiveJoin.Valid
  | archiveAuth => ArchiveAuth.Valid
  | archiveAppend | archiveHead => fun _ => True
  | archiveFetch => ArchiveFetch.Valid
  | archiveEntry => fun _ => True
  | archiveDelete => ArchiveDelete.Valid
  | keyringChunk => fun c => c.wellFormed = true
  | prekeyPut => PrekeyPut.Valid
  | prekeyTake => PrekeyTake.Valid
  | prekeyData => PrekeyData.Valid
  | prekeyStatus => PrekeyStatus.Valid
  | fileBegin => FileBegin.Valid
  | fileChunk => Relay.FileChunk.Valid
  | fileDownload => FileDownload.Valid
  | fileInfo => FileInfo.Valid
  | fileRedeem => FileRedeem.Valid
  | fileRef => fun fileId => fileId.length = fileIdBytes
  | fileStatus => FileStatus.Valid
  | transferHeader => FileHeader.Valid
  | transferMetadata => FileMetadata.Valid
  | transferChunk => FileProtocol.FileChunk.Valid

/-- A decoder returns a message for exactly one byte string, its encoding, and it does so for every
message within its limits. -/
theorem decode_eq_some_iff (k : MessageKind) (bytes : Bytes) (m : k.Message) :
    k.decode bytes = some m ↔ k.Valid m ∧ k.encode m = bytes := by
  cases k with
  | hello => exact decodeHello_eq_some
  | helloReply => exact decodeHelloReply_eq_some
  | register => exact decodeRegister_eq_some
  | auth => exact decodeAuth_eq_some
  | deposit => exact decodeDeposit_eq_some
  | storedEnvelope => exact decodeStoredEnvelope_eq_some
  | idList => exact decodeIdList_eq_some
  | hashOp => exact decodeHashOp_eq_some.trans (iff_of_eq (true_and _)).symm
  | inviteStatus => exact decodeInviteStatus_eq_some
  | archiveCreate => exact decodeArchiveCreate_eq_some
  | archiveJoin => exact decodeArchiveJoin_eq_some
  | archiveAuth => exact decodeArchiveAuth_eq_some
  | archiveAppend => exact decodeArchiveAppend_eq_some.trans (iff_of_eq (true_and _)).symm
  | archiveHead => exact decodeArchiveHead_eq_some.trans (iff_of_eq (true_and _)).symm
  | archiveFetch => exact decodeArchiveFetch_eq_some
  | archiveEntry => exact decodeArchiveEntry_eq_some.trans (iff_of_eq (true_and _)).symm
  | archiveDelete => exact decodeArchiveDelete_eq_some
  | keyringChunk => exact decodeKeyringChunk_eq_some
  | prekeyPut => exact decodePrekeyPut_eq_some
  | prekeyTake => exact decodePrekeyTake_eq_some
  | prekeyData => exact decodePrekeyData_eq_some
  | prekeyStatus => exact decodePrekeyStatus_eq_some
  | fileBegin => exact decodeFileBegin_eq_some
  | fileChunk => exact decodeFileChunk_eq_some
  | fileDownload => exact decodeFileDownload_eq_some
  | fileInfo => exact decodeFileInfo_eq_some
  | fileRedeem => exact decodeFileRedeem_eq_some
  | fileRef => exact decodeFileRef_eq_some
  | fileStatus => exact decodeFileStatus_eq_some
  | transferHeader => exact deserializeFileHeader_eq_some
  | transferMetadata => exact deserializeFileMetadata_eq_some
  | transferChunk => exact deserializeFileChunk_eq_some

end MessageKind

end PqSuite
