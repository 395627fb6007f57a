import PqSuite.Client.Envelope

/-!
# One spelling only

The parsers of an envelope's content (`envelope.cpp`), of a signed record and of the payloads of
records (`message_record.cpp`) take nothing but what the writers write of the value they return, apart
from the older versions, which are still read and no longer written. A signature therefore covers one
reading of what it was made for.
-/

namespace PqSuite

open Reader

theorem takes_counted {max size : ℕ} (hsize : size < 2 ^ 32) :
    Takes (do
      let count ← u32
      guard (count.toNat ≤ max)
      many count.toNat (blob size)) (fun bs part => bs.length ≤ max ∧ (∀ b ∈ bs, b.length ≤ size) ∧
        part = writeU32 (UInt32.ofNat bs.length) ++ (bs.map writeBlob).flatten) := by
  intro xs bs rest hrun
  obtain ⟨count, mid, -, rfl, hcheck⟩ := exact_u32.of_run hrun
  obtain ⟨hmax, hmany⟩ := of_run_check hcheck
  obtain ⟨⟨hlen, hbs⟩, rfl⟩ := ((exact_blob hsize).many count.toNat mid bs rest).1 hmany
  refine ⟨_, ?_, hlen.trans_le hmax, hbs, rfl⟩
  simp only [hlen, UInt32.ofNat_toNat, List.append_assoc, List.flatMap_def]

/-! ## The content of an envelope -/

namespace Envelope

variable {inner : Inner} {b : Bytes}

theorem takes_grantReader :
    Takes grantReader (fun parts part => part = encodeGrant parts.1 parts.2.1 parts.2.2) := by
  intro xs parts rest hrun
  obtain ⟨fileId, _, -, rfl, h₁⟩ := (exact_blob (by decide)).of_run hrun
  obtain ⟨key, _, -, rfl, h₂⟩ := (exact_blob (by decide)).of_run h₁
  obtain ⟨token, _, -, rfl, h₃⟩ := (exact_blob (by decide)).of_run h₂
  obtain ⟨rfl, rfl⟩ := of_run_pure h₃
  exact ⟨_, by simp only [encodeGrant, List.append_assoc], rfl⟩

theorem exact_grant : Exact readGrant (fun _ => True) writeGrant := by
  intro xs g rest
  refine ⟨fun hrun => ⟨trivial, ?_⟩, fun h => h.2 ▸ reads_grant g rest⟩
  obtain ⟨⟨fileId, key, token⟩, _, mid, rfl, rfl, h⟩ := takes_grantReader.of_run hrun
  dsimp only at h
  split_ifs at h with hsizes
  · obtain ⟨rfl, rfl⟩ := of_run_pure h
    rfl
  · cases h

theorem takes_grants (n : ℕ) (before : List AttachmentGrant) (hbefore : (before.map (·.fileId)).Nodup) :
    Takes (readGrants n before) (fun grants part => (grants.map (·.fileId)).Nodup ∧
      ∃ more, grants = before ++ more ∧ more.length = n ∧ part = (more.map writeGrant).flatten) := by
  induction n generalizing before with
  | zero =>
    intro xs grants rest hrun
    obtain ⟨rfl, rfl⟩ := of_run_pure hrun
    exact ⟨[], rfl, hbefore, [], (List.append_nil _).symm, rfl, rfl⟩
  | succ n ih =>
    intro xs grants rest hrun
    obtain ⟨g, mid, -, rfl, hcheck⟩ := exact_grant.of_run hrun
    obtain ⟨hnew, hmore⟩ := of_run_check hcheck
    have hnodup : ((before ++ [g]).map (·.fileId)).Nodup := Rows.nodup_concat hbefore hnew
    obtain ⟨part, rfl, hfiles, more, rfl, hlen, rfl⟩ := ih _ hnodup mid grants rest hmore
    refine ⟨writeGrant g ++ (more.map writeGrant).flatten, (List.append_assoc ..).symm, hfiles, g :: more,
      (List.append_cons ..).symm, by rw [List.length_cons, hlen], rfl⟩

theorem takes_allGrants :
    Takes readAllGrants (fun grants part => grants ≠ [] ∧ grants.length ≤ maxGrantsPerEnvelope ∧
      (grants.map (·.fileId)).Nodup ∧ part = grantsBytes grants) := by
  intro xs grants rest hrun
  obtain ⟨count, mid, -, rfl, hcheck⟩ := exact_u32.of_run hrun
  obtain ⟨⟨hone, hmax⟩, hmany⟩ := of_run_check hcheck
  obtain ⟨part, rfl, hfiles, _, rfl, hlen, rfl⟩ := takes_grants count.toNat [] List.nodup_nil _ _ _ hmany
  have hne : grants ≠ [] := List.ne_nil_of_length_pos (hlen ▸ hone)
  refine ⟨grantsBytes grants, ?_, hne, hlen.trans_le hmax, hfiles, rfl⟩
  rw [grantsBytes, if_neg hne, hlen, UInt32.ofNat_toNat, List.append_assoc]

/-- The content as version 1 spells it: the sender's bundle and the records. -/
def firstContent (inner : Inner) : Bytes :=
  writeU32 1 ++ (writeBlob inner.senderBundle ++
    (writeU32 (UInt32.ofNat inner.records.length) ++ (inner.records.map writeBlob).flatten))

def contentVersion (b : Bytes) : Option UInt32 := (readU32 b).map Prod.fst

theorem contentVersion_append (v : UInt32) (rest : Bytes) : contentVersion (writeU32 v ++ rest) = some v := by
  rw [contentVersion, readU32_writeU32]
  rfl

theorem takes_records (senderBundle : Bytes) (introduced : List Bytes) (grants : List AttachmentGrant) :
    Takes (do
      let count ← u32
      guard (count.toNat ≤ maxRecordsPerEnvelope)
      let records ← many count.toNat (blob maxRecordBytes)
      return ({ senderBundle, records, introduced, grants } : Inner))
      (fun inner part => ∃ records, inner = { senderBundle, records, introduced, grants } ∧
        records.length ≤ maxRecordsPerEnvelope ∧ (∀ r ∈ records, r.length ≤ maxRecordBytes) ∧
        part = writeU32 (UInt32.ofNat records.length) ++ (records.map writeBlob).flatten) := by
  intro xs inner rest hrun
  obtain ⟨count, mid, -, rfl, hcheck⟩ := exact_u32.of_run hrun
  obtain ⟨hmax, hmany⟩ := of_run_check hcheck
  obtain ⟨records, mid, hlen, hrecords, rfl, hpure⟩ := run_blobs (by decide) hmany
  obtain ⟨rfl, rfl⟩ := of_run_pure hpure
  refine ⟨_, ?_, records, rfl, hlen.trans_le hmax, hrecords, rfl⟩
  rw [hlen, UInt32.ofNat_toNat, List.append_assoc]

theorem takes_inner :
    Takes innerReader (fun inner part => Fits inner ∧ (∀ r ∈ inner.records, r.length ≤ maxRecordBytes) ∧
      (part = firstContent inner ∧ inner.introduced = [] ∧ inner.grants = [] ∨
        encodeInner inner = .ok part)) := by
  intro xs inner rest hrun
  obtain ⟨version, _, -, rfl, hcheck⟩ := exact_u32.of_run hrun
  obtain ⟨hversion, h₁⟩ := of_run_check hcheck
  obtain ⟨senderBundle, _, hbundle, rfl, h₂⟩ := (exact_blob (by decide)).of_run h₁
  have hcases : version = 1 ∨ version = 2 ∨ version = 3 := by
    simp only [minInnerVersion, innerVersion, UInt32.le_iff_toNat_le, ← UInt32.toNat_inj,
      UInt32.reduceToNat] at hversion ⊢
    omega
  rcases hcases with rfl | rfl | rfl
  · rw [if_neg (by decide), pure_bind] at h₂
    dsimp only at h₂
    rw [if_neg (by decide), pure_bind] at h₂
    obtain ⟨_, rfl, records, rfl, hcount, hrecords, rfl⟩ := takes_records _ _ _ _ _ _ h₂
    refine ⟨_, ?_, ⟨hbundle, Nat.zero_le _, by simp, hcount, Nat.zero_le _, List.nodup_nil⟩, hrecords,
      .inl ⟨rfl, rfl, rfl⟩⟩
    simp only [firstContent, List.append_assoc]
  · rw [if_pos (by decide)] at h₂
    obtain ⟨introduced, _, _, ⟨hmax, hintroduced, rfl⟩, rfl, h₃⟩ := (takes_counted (by decide)).of_run h₂
    dsimp only at h₃
    rw [if_neg (by decide), pure_bind] at h₃
    obtain ⟨_, rfl, records, rfl, hcount, hrecords, rfl⟩ := takes_records _ _ _ _ _ _ h₃
    have hfits : Fits { senderBundle, records, introduced, grants := [] } :=
      ⟨hbundle, hmax, hintroduced, hcount, Nat.zero_le _, List.nodup_nil⟩
    refine ⟨_, ?_, hfits, hrecords, .inr (encodeInner_of_fits hfits)⟩
    simp only [grantsBytes, if_true, List.nil_append, List.append_assoc]
  · rw [if_pos (by decide)] at h₂
    obtain ⟨introduced, _, _, ⟨hmax, hintroduced, rfl⟩, rfl, h₃⟩ := (takes_counted (by decide)).of_run h₂
    dsimp only at h₃
    rw [if_pos (by decide)] at h₃
    obtain ⟨grants, _, _, ⟨hne, hgrants, hfiles, rfl⟩, rfl, h₄⟩ := takes_allGrants.of_run h₃
    obtain ⟨_, rfl, records, rfl, hcount, hrecords, rfl⟩ := takes_records _ _ _ _ _ _ h₄
    have hfits : Fits { senderBundle, records, introduced, grants } :=
      ⟨hbundle, hmax, hintroduced, hcount, hgrants, hfiles⟩
    refine ⟨_, ?_, hfits, hrecords, .inr (encodeInner_of_fits hfits)⟩
    simp only [hne, if_false, List.append_assoc]

theorem contentVersion_encodeInner {encoded : Bytes} (h : encodeInner inner = .ok encoded) :
    contentVersion encoded = some (if inner.grants = [] then 2 else 3) := by
  obtain ⟨-, rfl⟩ := encodeInner_ok h
  exact contentVersion_append _ _

/-- A content of version 2 or 3 is what is written of it. One of version 1 has a bundle and records, and
is read as the content of version 2 with these and nothing introduced or granted. -/
theorem content_has_one_spelling (h : decodeInner b = some inner) :
    (contentVersion b = some 2 ∨ contentVersion b = some 3 → encodeInner inner = .ok b) ∧
    (contentVersion b = some 1 →
      b = firstContent inner ∧ inner.introduced = [] ∧ inner.grants = [] ∧
      ∃ b', encodeInner inner = .ok b' ∧ contentVersion b' = some 2 ∧ decodeInner b' = some inner) := by
  obtain ⟨hfits, hrecords, hspelling⟩ := takes_inner.whole h
  rcases hspelling with ⟨rfl, hintroduced, hgrants⟩ | hencoded
  · have hfirst : contentVersion (firstContent inner) = some 1 := contentVersion_append _ _
    refine ⟨fun hv => ?_, fun _ => ⟨rfl, hintroduced, hgrants, ?_⟩⟩
    · rw [hfirst] at hv
      exact absurd hv (by decide)
    · have hencoded := encodeInner_of_fits hfits
      refine ⟨_, hencoded, ?_, (reads_inner hencoded hrecords).whole_eq⟩
      rw [contentVersion_encodeInner hencoded, if_pos hgrants]
  · refine ⟨fun _ => hencoded, fun hv => ?_⟩
    rw [contentVersion_encodeInner hencoded] at hv
    split_ifs at hv <;> exact absurd hv (by decide)

/-- A content of each version. -/
theorem content_has_one_spelling_sample :
    encodeInner sampleInner = .ok (encodedOf sampleInner) ∧
    encodeInner otherInner = .ok (encodedOf otherInner) ∧
    ∃ b, encodeInner { records := [[7]] } = .ok b ∧ contentVersion b = some 2 ∧
      decodeInner b = some { records := [[7]] } := by
  refine ⟨(content_has_one_spelling (by decide +kernel)).1 (.inr (by decide +kernel)),
    (content_has_one_spelling (by decide +kernel)).1 (.inl (by decide +kernel)), ?_⟩
  have hread : decodeInner (firstContent { records := [[7]] }) = some { records := [[7]] } := by
    decide +kernel
  exact ((content_has_one_spelling hread).2 (by decide +kernel)).2.2.2

end Envelope

/-! ## Signed records -/

namespace Chat

variable {C : ChatCrypto} {r : Record} {sr : SignedRecord} {raw : Bytes}

/-- The body as version 1 spells it, with one hash of what was seen, or none. -/
def firstBody (r : Record) : Bytes :=
  writeU32 recordMagic ++ (writeU32 1 ++ (writeBlob r.conversationId ++
    (writeBlob r.messageId ++ (writeBlob r.sender ++ (writeBlob r.recipientsHash ++
      (writeU64 r.sentAt ++ (writeU32 r.type.code ++ (writeBlob r.payload ++
        (writeBlob r.ownPrev ++ writeBlob (r.seen.headD []))))))))))

def bodyVersion (body : Bytes) : Option UInt32 := do
  let (_, rest) ← readU32 body
  let (version, _) ← readU32 rest
  return version

theorem bodyVersion_append (magic version : UInt32) (rest : Bytes) :
    bodyVersion (writeU32 magic ++ (writeU32 version ++ rest)) = some version := by
  simp only [bodyVersion, readU32_writeU32, Option.bind_eq_bind, Option.bind_some]
  rfl

theorem code_of_ofCode {v : UInt32} {t : RecordType} (h : RecordType.ofCode v = some t) : t.code = v := by
  unfold RecordType.ofCode at h
  split at h <;> cases h <;> rfl

theorem takes_firstSeen :
    Takes (seenReader 1) (fun seen part => seen.length ≤ 1 ∧ part = writeBlob (seen.headD [])) := by
  intro xs seen rest hrun
  rw [seenReader, if_pos rfl] at hrun
  obtain ⟨one, _, -, rfl, hpure⟩ := (exact_blob (by decide)).of_run hrun
  obtain ⟨rfl, rfl⟩ := of_run_pure hpure
  refine ⟨writeBlob one, rfl, ?_⟩
  by_cases hone : one = []
  · simp [hone]
  · simp [hone]

/-- The kinds of version 1. -/
theorem type_of_code_le {t : RecordType} (h : t.code ≤ 3) : t ∈ [.text, .receipt, .tokenGrant] := by
  cases t <;> first | decide | exact absurd h (by decide)

theorem takes_body :
    Takes bodyReader (fun r part => part = writeBody r ∨
      part = firstBody r ∧ r.seen.length ≤ 1 ∧ r.type ∈ [.text, .receipt, .tokenGrant]) := by
  intro xs r rest hrun
  obtain ⟨magic, _, -, rfl, h₁⟩ := exact_u32.of_run hrun
  obtain ⟨version, _, -, rfl, h₂⟩ := exact_u32.of_run h₁
  obtain ⟨⟨rfl, hversion⟩, h₃⟩ := of_run_check h₂
  obtain ⟨conversationId, _, -, rfl, h₄⟩ := (exact_blob (by decide)).of_run h₃
  obtain ⟨messageId, _, -, rfl, h₅⟩ := (exact_blob (by decide)).of_run h₄
  obtain ⟨sender, _, -, rfl, h₆⟩ := (exact_blob (by decide)).of_run h₅
  obtain ⟨recipientsHash, _, -, rfl, h₇⟩ := (exact_blob (by decide)).of_run h₆
  obtain ⟨sentAt, _, -, rfl, h₈⟩ := exact_u64.of_run h₇
  obtain ⟨code, _, -, rfl, h₉⟩ := exact_u32.of_run h₈
  obtain ⟨payload, _, -, rfl, h₁₀⟩ := (exact_blob (by decide)).of_run h₉
  obtain ⟨ownPrev, _, -, rfl, h₁₁⟩ := (exact_blob (by decide)).of_run h₁₀
  have hcases : version = 1 ∨ version = 2 := by
    simp only [minRecordVersion, recordVersion, UInt32.le_iff_toNat_le, ← UInt32.toNat_inj,
      UInt32.reduceToNat] at hversion ⊢
    omega
  rcases hcases with rfl | rfl
  · obtain ⟨seen, _, _, ⟨hseen, rfl⟩, rfl, h₁₂⟩ := takes_firstSeen.of_run h₁₁
    obtain ⟨hkinds, h₁₃⟩ := of_run_check h₁₂
    obtain ⟨type, htype, hpure⟩ := of_run_lift h₁₃
    obtain ⟨rfl, rfl⟩ := of_run_pure hpure
    obtain rfl := code_of_ofCode htype
    refine ⟨_, ?_, .inr ⟨rfl, hseen, type_of_code_le (hkinds.resolve_left (not_not.2 rfl))⟩⟩
    simp only [firstBody, List.append_assoc]
  · obtain ⟨seen, _, _, ⟨-, -, rfl⟩, rfl, h₁₂⟩ := (takes_counted (by decide)).of_run h₁₁
    obtain ⟨-, h₁₃⟩ := of_run_check h₁₂
    obtain ⟨type, htype, hpure⟩ := of_run_lift h₁₃
    obtain ⟨rfl, rfl⟩ := of_run_pure hpure
    obtain rfl := code_of_ofCode htype
    refine ⟨_, ?_, .inl rfl⟩
    simp only [writeBody, recordVersion, List.append_assoc]

theorem length_writeBody_le (h : wellFormed r = true) : (writeBody r).length ≤ 33600 := by
  simp only [wellFormed, Bool.and_eq_true, Bool.or_eq_true, decide_eq_true_eq, List.all_eq_true] at h
  obtain ⟨⟨⟨⟨⟨⟨⟨⟨⟨⟨hconv, hmsg⟩, hsender⟩, hrecipients⟩, hprev⟩, hcount⟩, hseen⟩, -⟩, hpayload⟩, -⟩,
    -⟩ := h
  have hprev : r.ownPrev.length ≤ hashBytes := by
    rcases hprev with hprev | hprev <;> simp [hprev]
  have hpayload := hpayload.trans (maxPayload_le r.type)
  simp only [writeBody, List.length_append, length_writeU32, length_writeU64, length_writeBlob,
    length_flatten_writeBlob hseen, hconv, hmsg, hsender, hrecipients]
  simp only [idBytes, hashBytes, maxTextBytes, maxSeen] at *
  omega

theorem length_signed_le {signature : Bytes} (h : wellFormed r = true) (hsignature : signature.length ≤ 3309) :
    (writeBlob (writeBody r) ++ writeBlob signature).length ≤ maxRecordBytes := by
  have hbody := length_writeBody_le h
  simp only [List.length_append, length_writeBlob, maxRecordBytes]
  omega

/-- A well-formed record is read back as it was signed. What is read of version 2 is written again as
the body that was signed. A record of version 1 is a record of version 2 that has seen at most one entry
and is of one of the three kinds there were. -/
theorem record_has_one_reading (C : ChatCrypto) :
    (∀ r key signature, wellFormed r = true → C.sign (signingInput (writeBody r)) key = .ok signature →
      signature.length ≤ 3309 →
      ∃ raw sr, signRecord C r key = .ok raw ∧ parseRecord C raw = some sr ∧ sr.record = r ∧ sr.raw = raw) ∧
    (∀ raw sr, parseRecord C raw = some sr →
      bodyVersion sr.body = some 1 ∨ bodyVersion sr.body = some 2) ∧
    (∀ raw sr, parseRecord C raw = some sr → bodyVersion sr.body = some 2 → writeBody sr.record = sr.body) ∧
    ∀ raw sr, parseRecord C raw = some sr → bodyVersion sr.body = some 1 →
      sr.body = firstBody sr.record ∧ sr.record.seen.length ≤ 1 ∧
      sr.record.type ∈ [.text, .receipt, .tokenGrant] ∧ wellFormed sr.record = true ∧
      whole bodyReader (writeBody sr.record) = some sr.record := by
  have hbody : ∀ raw sr, parseRecord C raw = some sr → _ := fun raw sr h =>
    takes_body.whole (parseRecord_eq_some h).2.2.1
  have hsecond : ∀ r, bodyVersion (writeBody r) = some 2 := fun r => bodyVersion_append _ _ _
  have hfirst : ∀ r, bodyVersion (firstBody r) = some 1 := fun r => bodyVersion_append _ _ _
  refine ⟨fun r key signature hwell hsign hsignature => ?_, fun raw sr h => ?_, fun raw sr h hv => ?_,
    fun raw sr h hv => ?_⟩
  · have hraw : signRecord C r key = .ok (writeBlob (writeBody r) ++ writeBlob signature) := by
      rw [signRecord, if_pos hwell, hsign]
    have hmax : signature.length ≤ maxSignatureBytes := hsignature.trans (by decide)
    exact ⟨_, _, hraw, parseRecord_signed hwell hmax (length_signed_le hwell hsignature), rfl, rfl⟩
  · rcases hbody raw sr h with hb | ⟨hb, -⟩ <;> rw [hb]
    · exact .inr (hsecond _)
    · exact .inl (hfirst _)
  · rcases hbody raw sr h with hb | ⟨hb, -⟩
    · exact hb.symm
    · rw [hb, hfirst] at hv
      exact absurd hv (by decide)
  · rcases hbody raw sr h with hb | ⟨hb, hseen, htype⟩
    · rw [hb, hsecond] at hv
      exact absurd hv (by decide)
    · have hwell := (parseRecord_eq_some h).2.2.2.1
      exact ⟨hb, hseen, htype, hwell, (reads_body hwell).whole_eq⟩

/-- Every key signs with one byte. -/
def byteCrypto : ChatCrypto where
  sha256 := Relay.byteSum
  sign _ _ := .ok [1]
  verify _ _ _ := true
  sigPublicKeySize := 1
  kemPublicKeySize := 1

def seenText : Record where
  conversationId := List.replicate 16 1
  messageId := List.replicate 16 2
  sender := List.replicate 32 3
  recipientsHash := List.replicate 32 4
  sentAt := 5
  type := .text
  payload := [6]
  seen := [List.replicate 32 7]

def firstText : SignedRecord :=
  let raw := writeBlob (firstBody seenText) ++ writeBlob [1]
  ⟨seenText, raw, Relay.byteSum raw, firstBody seenText, [1]⟩

theorem record_has_one_reading_sample :
    (∃ raw sr, signRecord byteCrypto seenText [] = .ok raw ∧ parseRecord byteCrypto raw = some sr ∧
      sr.record = seenText ∧ sr.raw = raw) ∧
    parseRecord byteCrypto firstText.raw = some firstText ∧ firstText.record.seen.length ≤ 1 := by
  have hparse : parseRecord byteCrypto firstText.raw = some firstText := by decide +kernel
  refine ⟨(record_has_one_reading byteCrypto).1 seenText [] [1] (by decide +kernel) rfl (by decide), hparse,
    ?_⟩
  exact ((record_has_one_reading byteCrypto).2.2.2 _ _ hparse (by decide +kernel)).2.1

end Chat

end PqSuite
