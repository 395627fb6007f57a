import PqSuite.Client.Spelling

/-!
# The payloads of records (`message_record.cpp`)

Each kind of record that carries more than bytes has a writer and a parser. What a parser accepts is
what the writer writes of the value it returns. The other way, the writers check what the parsers
check, with two exceptions: a receipt is written whatever the sizes of the message IDs, and a request
for deletion although it names an entry twice.
-/

namespace PqSuite.Chat

open Reader

/-! ## Group details -/

theorem undoes_conversation : Undoes parseConversationPayload conversationPayload (fun _ => True) where
  reads c payload _ h := by
    unfold conversationPayload at h
    split_ifs at h with hvalid
    obtain rfl := Except.ok.inj h
    have hfields := hvalid
    simp only [validInfo, Bool.and_eq_true, Bool.or_eq_true, decide_eq_true_eq, List.all_eq_true] at hfields
    obtain ⟨⟨⟨⟨⟨⟨⟨htitle, -⟩, -⟩, hprevious⟩, hmin⟩, hmax⟩, hmembers⟩, -⟩ := hfields
    have hprevious : c.previousId.length ≤ idBytes := by
      rcases hprevious with hprevious | hprevious <;> simp [hprevious]
    have hlen : (UInt32.ofNat c.members.length).toNat = c.members.length :=
      Relay.toNat_count hmax (by decide)
    have hmode : ConversationMode.ofCode c.mode.code = some c.mode := rfl
    have hreads : Reads conversationPayloadReader _ c :=
      (reads_u32 _).bind <| (reads_blob htitle (by decide)).bind <| (reads_u32 _).bind <|
      (reads_u64 _).bind <| (reads_blob hprevious (by decide)).bind <| (reads_u32 _).bind <|
      .check ⟨rfl, hlen.symm ▸ hmin, hlen.symm ▸ hmax⟩ <| hlen.symm ▸
      (reads_blobs (fun b hb => (hmembers b hb).le) (by decide)).last <|
      (reads_lift hmode).last <| reads_pure c
    have hsize : ¬(writeU32 conversationPayloadVersion ++ (writeBlob c.title ++ (writeU32 c.mode.code ++
        (writeU64 c.timerSeconds ++ (writeBlob c.previousId ++ (writeU32 (UInt32.ofNat c.members.length) ++
          (c.members.map writeBlob).flatten)))))).length > maxConversationPayload := by
      simp only [List.length_append, length_writeU32, length_writeU64, length_writeBlob,
        length_flatten_writeBlob hmembers]
      simp only [idBytes, hashBytes, maxTitleBytes, maxGroupMembers, maxConversationPayload] at *
      omega
    rw [parseConversationPayload, if_neg hsize, hreads.whole_eq, Option.filter_some, if_pos hvalid]
  writes payload c h := by
    unfold parseConversationPayload at h
    split_ifs at h
    obtain ⟨hwhole, hvalid⟩ := Option.filter_eq_some_iff.1 h
    have hrun := whole_eq_some hwhole
    obtain ⟨version, _, -, rfl, h₁⟩ := exact_u32.of_run hrun
    obtain ⟨title, _, -, rfl, h₂⟩ := (exact_blob (by decide)).of_run h₁
    obtain ⟨mode, _, -, rfl, h₃⟩ := exact_u32.of_run h₂
    obtain ⟨timerSeconds, _, -, rfl, h₄⟩ := exact_u64.of_run h₃
    obtain ⟨previousId, _, -, rfl, h₅⟩ := (exact_blob (by decide)).of_run h₄
    obtain ⟨count, _, -, rfl, h₆⟩ := exact_u32.of_run h₅
    obtain ⟨⟨rfl, -⟩, h₇⟩ := of_run_check h₆
    obtain ⟨members, _, hlen, -, rfl, h₈⟩ := run_blobs (by decide) h₇
    obtain ⟨mode', hmode, hpure⟩ := of_run_lift h₈
    obtain ⟨rfl, rfl⟩ := of_run_pure hpure
    have hcode : mode'.code = mode := by
      unfold ConversationMode.ofCode at hmode
      split at hmode <;> cases hmode
      rfl
    refine ⟨trivial, ?_⟩
    rw [conversationPayload, if_pos hvalid, hlen, UInt32.ofNat_toNat, hcode, List.append_nil]

/-! ## Forwards, archive grants and attachments -/

theorem undoes_forward :
    Undoes parseForwardPayload (fun f : ForwardInfo => forwardPayload f.target f.envelope) (fun _ => True) where
  reads f payload _ h := by
    unfold forwardPayload at h
    split_ifs at h with hbad
    obtain rfl := Except.ok.inj h
    obtain ⟨htarget, hne, hmax⟩ := not_or.1 hbad |>.imp not_not.1 not_or.1
    have hreads : Reads forwardReader (writeBlob f.target ++ writeBlob f.envelope) f :=
      (reads_blob htarget.le (by decide)).bind <|
      (reads_blob (not_lt.1 hmax) (by decide)).last <| reads_pure f
    rw [parseForwardPayload, hreads.whole_eq, Option.filter_some, if_pos]
    simp [htarget, hne]
  writes payload f h := by
    obtain ⟨hwhole, hvalid⟩ := Option.filter_eq_some_iff.1 h
    obtain ⟨target, _, -, rfl, h₁⟩ := (exact_blob (by decide)).of_run (whole_eq_some hwhole)
    obtain ⟨envelope, _, hmax, rfl, hpure⟩ := (exact_blob (by decide)).of_run h₁
    obtain ⟨rfl, rfl⟩ := of_run_pure hpure
    rw [Bool.and_eq_true, decide_eq_true_eq, decide_eq_true_eq] at hvalid
    refine ⟨trivial, ?_⟩
    rw [List.append_nil]
    refine if_neg ?_
    rintro (htarget | hempty | hlong)
    · exact htarget hvalid.1
    · exact hvalid.2 hempty
    · exact absurd hmax (not_le.2 hlong)

theorem undoes_archiveGrant : Undoes parseArchiveGrantPayload archiveGrantPayload (fun _ => True) where
  reads g payload _ h := by
    unfold archiveGrantPayload at h
    split_ifs at h with hvalid
    obtain rfl := Except.ok.inj h
    have hfields := hvalid
    simp only [validArchiveGrant, Bool.and_eq_true, decide_eq_true_eq] at hfields
    obtain ⟨⟨⟨⟨⟨-, haddress⟩, -⟩, hrelay⟩, hkey⟩, htoken⟩ := hfields
    have hreads : Reads archiveGrantReader (writeBlob g.relayAddress ++ (writeBlob g.relayId ++
        (writeBlob g.archiveKey ++ writeBlob g.joinToken))) g :=
      (reads_blob haddress (by decide)).bind <| (reads_blob hrelay.le (by decide)).bind <|
      (reads_blob hkey.le (by decide)).bind <| (reads_blob htoken.le (by decide)).last <| reads_pure g
    have hsize : ¬(writeBlob g.relayAddress ++ (writeBlob g.relayId ++
        (writeBlob g.archiveKey ++ writeBlob g.joinToken))).length > maxArchiveGrantPayload := by
      simp only [List.length_append, length_writeBlob]
      simp only [maxRelayAddressBytes, hashBytes, maxArchiveGrantPayload] at *
      omega
    rw [parseArchiveGrantPayload, if_neg hsize, hreads.whole_eq, Option.filter_some, if_pos hvalid]
  writes payload g h := by
    unfold parseArchiveGrantPayload at h
    split_ifs at h
    obtain ⟨hwhole, hvalid⟩ := Option.filter_eq_some_iff.1 h
    obtain ⟨relayAddress, _, -, rfl, h₁⟩ := (exact_blob (by decide)).of_run (whole_eq_some hwhole)
    obtain ⟨relayId, _, -, rfl, h₂⟩ := (exact_blob (by decide)).of_run h₁
    obtain ⟨archiveKey, _, -, rfl, h₃⟩ := (exact_blob (by decide)).of_run h₂
    obtain ⟨joinToken, _, -, rfl, hpure⟩ := (exact_blob (by decide)).of_run h₃
    obtain ⟨rfl, rfl⟩ := of_run_pure hpure
    refine ⟨trivial, ?_⟩
    rw [archiveGrantPayload, if_pos hvalid, List.append_nil]

theorem undoes_attachment : Undoes parseAttachmentPayload attachmentPayload (fun _ => True) where
  reads _ _ _ h := parseAttachmentPayload_attachmentPayload h
  writes payload a h := by
    unfold parseAttachmentPayload at h
    split_ifs at h
    obtain ⟨hwhole, hvalid⟩ := Option.filter_eq_some_iff.1 h
    obtain ⟨fileId, _, -, rfl, h₁⟩ := (exact_blob (by decide)).of_run (whole_eq_some hwhole)
    obtain ⟨name, _, -, rfl, h₂⟩ := (exact_blob (by decide)).of_run h₁
    obtain ⟨size, _, -, rfl, h₃⟩ := exact_u64.of_run h₂
    obtain ⟨sha256, _, -, rfl, h₄⟩ := (exact_blob (by decide)).of_run h₃
    obtain ⟨expiresAt, _, -, rfl, h₅⟩ := exact_u64.of_run h₄
    obtain ⟨relayAddress, _, -, rfl, h₆⟩ := (exact_blob (by decide)).of_run h₅
    obtain ⟨relayId, _, -, rfl, h₇⟩ := (exact_blob (by decide)).of_run h₆
    obtain ⟨caption, _, -, rfl, hpure⟩ := (exact_blob (by decide)).of_run h₇
    obtain ⟨rfl, rfl⟩ := of_run_pure hpure
    refine ⟨trivial, ?_⟩
    rw [attachmentPayload, if_pos hvalid, List.append_nil]

/-! ## Deletions -/

theorem toU32_of_scopeOf {code : UInt32} {scope : Relay.DeleteScope} (h : scopeOf code = some scope) :
    scope.toU32 = code := by
  unfold scopeOf at h
  split at h <;> cases h <;> rfl

theorem scopeOf_toU32 (scope : Relay.DeleteScope) : scopeOf scope.toU32 = some scope := by
  cases scope <;> rfl

theorem undoes_deleteRequest :
    Undoes parseDeleteRequestPayload deleteRequestPayload (fun info => info.entries.Nodup) where
  reads info payload hnodup h := by
    unfold deleteRequestPayload at h
    split_ifs at h with hbad
    obtain rfl := Except.ok.inj h
    obtain ⟨hop, hallows, hentries⟩ := not_or.1 hbad |>.imp not_not.1 not_or.1
    have hallows := not_not.1 hallows
    have hentries := not_not.1 hentries
    have hsizes : ∀ h ∈ info.entries, h.length = hashBytes := by simpa using hentries
    have hmax := Relay.DeleteScope.length_le_of_allows hallows
    have hlen : (UInt32.ofNat info.entries.length).toNat = info.entries.length :=
      Relay.toNat_count hmax (by decide)
    have hlast : Reads (do
        let entries ← many info.entries.length (blob hashBytes)
        guard (entries.all (·.length = hashBytes) ∧ entries.Nodup)
        return { info with entries }) (info.entries.map writeBlob).flatten info :=
      (reads_blobs (fun b hb => (hsizes b hb).le) (by decide)).last <|
      .check ⟨hentries, hnodup⟩ <| reads_pure info
    rw [← hlen] at hlast
    have hreads : Reads deleteRequestReader _ info :=
      (reads_u32 _).bind <| (reads_blob hop.le (by decide)).bind <| (reads_u64 _).bind <|
      (reads_u32 _).bind <| (reads_lift (scopeOf_toU32 info.scope)).bind <|
      .check ⟨hop, hlen.symm ▸ hallows⟩ hlast
    have hsize : ¬(writeU32 info.scope.toU32 ++ (writeBlob info.opId ++ (writeU64 info.expiresAt ++
        (writeU32 (UInt32.ofNat info.entries.length) ++ (info.entries.map writeBlob).flatten)))).length >
          maxDeleteRequestPayload := by
      simp only [List.length_append, length_writeU32, length_writeU64, length_writeBlob,
        length_flatten_writeBlob hsizes]
      simp only [hashBytes, maxDeleteRequestPayload, Relay.maxDeleteEntries] at *
      omega
    rw [parseDeleteRequestPayload, if_neg hsize]
    exact hreads.whole_eq
  writes payload info h := by
    unfold parseDeleteRequestPayload at h
    split_ifs at h
    obtain ⟨code, _, -, rfl, h₁⟩ := exact_u32.of_run (whole_eq_some h)
    obtain ⟨opId, _, -, rfl, h₂⟩ := (exact_blob (by decide)).of_run h₁
    obtain ⟨expiresAt, _, -, rfl, h₃⟩ := exact_u64.of_run h₂
    obtain ⟨count, _, -, rfl, h₄⟩ := exact_u32.of_run h₃
    obtain ⟨scope, hscope, h₅⟩ := of_run_lift h₄
    obtain ⟨⟨hop, hallows⟩, h₆⟩ := of_run_check h₅
    obtain ⟨entries, _, hlen, -, rfl, h₇⟩ := run_blobs (by decide) h₆
    obtain ⟨⟨hentries, hnodup⟩, hpure⟩ := of_run_check h₇
    obtain ⟨rfl, rfl⟩ := of_run_pure hpure
    refine ⟨hnodup, ?_⟩
    have hgood : ¬(opId.length ≠ 16 ∨ ¬scope.allows entries.length ∨
        ¬entries.all (·.length = hashBytes)) := by
      rw [hlen]
      simp only [hop, hallows, hentries, ne_eq, not_true_eq_false, or_self, not_false_eq_true]
    rw [deleteRequestPayload, if_neg hgood, hlen, UInt32.ofNat_toNat, toU32_of_scopeOf hscope,
      List.append_nil]

theorem undoes_deleteAccept : Undoes parseDeleteAcceptPayload deleteAcceptPayload (fun _ => True) where
  reads info payload _ h := by
    unfold deleteAcceptPayload at h
    split_ifs at h with hvalid
    obtain rfl := Except.ok.inj h
    have hfields := hvalid
    simp only [validDeleteAccept, Bool.and_eq_true, decide_eq_true_eq] at hfields
    obtain ⟨⟨⟨hop, hhash⟩, -⟩, hsignature⟩ := hfields
    have hreads : Reads deleteAcceptReader (writeBlob info.opId ++ (writeBlob info.keyHash ++
        writeBlob info.signature)) info :=
      (reads_blob hop.le (by decide)).bind <| (reads_blob hhash.le (by decide)).bind <|
      (reads_blob hsignature (by decide)).last <| reads_pure info
    have hsize : ¬(writeBlob info.opId ++ (writeBlob info.keyHash ++ writeBlob info.signature)).length >
        maxDeleteAcceptPayload := by
      simp only [List.length_append, length_writeBlob]
      simp only [hashBytes, maxSignatureBytes, maxDeleteAcceptPayload] at *
      omega
    rw [parseDeleteAcceptPayload, if_neg hsize, hreads.whole_eq, Option.filter_some, if_pos hvalid]
  writes payload info h := by
    unfold parseDeleteAcceptPayload at h
    split_ifs at h
    obtain ⟨hwhole, hvalid⟩ := Option.filter_eq_some_iff.1 h
    obtain ⟨opId, _, -, rfl, h₁⟩ := (exact_blob (by decide)).of_run (whole_eq_some hwhole)
    obtain ⟨keyHash, _, -, rfl, h₂⟩ := (exact_blob (by decide)).of_run h₁
    obtain ⟨signature, _, -, rfl, hpure⟩ := (exact_blob (by decide)).of_run h₂
    obtain ⟨rfl, rfl⟩ := of_run_pure hpure
    refine ⟨trivial, ?_⟩
    rw [deleteAcceptPayload, if_pos hvalid, List.append_nil]

/-! ## Checkpoints and receipts -/

theorem undoes_checkpoint :
    Undoes parseCheckpointPayload (fun c : CheckpointInfo => checkpointPayload c.number c.hash)
      (fun _ => True) where
  reads c payload _ h := by
    unfold checkpointPayload at h
    split_ifs at h with hbad
    obtain rfl := Except.ok.inj h
    obtain ⟨hnumber, hhash⟩ := not_or.1 hbad
    have hhash := not_not.1 hhash
    have hreads : Reads checkpointReader (writeU64 c.number ++ writeBlob c.hash) c :=
      (reads_u64 _).bind <| (reads_blob hhash.le (by decide)).last <| .check ⟨hnumber, hhash⟩ <| reads_pure c
    exact hreads.whole_eq
  writes payload c h := by
    obtain ⟨number, _, -, rfl, h₁⟩ := exact_u64.of_run (whole_eq_some h)
    obtain ⟨hash, _, -, rfl, h₂⟩ := (exact_blob (by decide)).of_run h₁
    obtain ⟨⟨hnumber, hhash⟩, hpure⟩ := of_run_check h₂
    obtain ⟨rfl, rfl⟩ := of_run_pure hpure
    refine ⟨trivial, ?_⟩
    rw [List.append_nil]
    exact if_neg (not_or.2 ⟨hnumber, not_not.2 hhash⟩)

theorem ReceiptKind.code_of_ofCode {code : UInt8} {kind : ReceiptKind}
    (h : ReceiptKind.ofCode code = some kind) : kind.code = code := by
  unfold ReceiptKind.ofCode at h
  split at h <;> cases h <;> rfl

theorem undoes_receipt :
    Undoes parseReceiptPayload (fun r : ReceiptInfo => receiptPayload r.kind r.messageIds)
      (fun r => ∀ id ∈ r.messageIds, id.length = idBytes) where
  reads _ _ hids h := parseReceiptPayload_written hids h
  writes payload r h := by
    cases payload with
    | nil => exact nomatch h
    | cons code rest =>
      obtain ⟨kind, hkind, h⟩ := Option.bind_eq_some_iff.1 h
      obtain ⟨ids, hwhole, h⟩ := Option.bind_eq_some_iff.1 h
      split_ifs at h with hids
      obtain rfl := Option.some.inj h
      obtain ⟨hmax, -, rfl⟩ := (takes_counted (by decide)).whole hwhole
      refine ⟨by simpa using hids, ?_⟩
      dsimp only
      rw [receiptPayload, if_neg (not_lt.2 hmax), ReceiptKind.code_of_ofCode hkind]

/-! ## Every kind -/

/-- What the payload of a record says, if it says more than its bytes. -/
inductive Payload where
  | conversation (info : ConversationInfo)
  | forward (info : ForwardInfo)
  | archiveGrant (info : ArchiveGrantInfo)
  | attachment (info : AttachmentInfo)
  | deleteRequest (info : DeleteRequestInfo)
  | deleteAccept (info : DeleteAcceptInfo)
  | checkpoint (info : CheckpointInfo)
  | receipt (info : ReceiptInfo)
  deriving DecidableEq

namespace Payload

def type : Payload → RecordType
  | .conversation _ => .conversation
  | .forward _ => .forward
  | .archiveGrant _ => .archiveGrant
  | .attachment _ => .attachment
  | .deleteRequest _ => .deleteRequest
  | .deleteAccept _ => .deleteAccept
  | .checkpoint _ => .checkpoint
  | .receipt _ => .receipt

def write : Payload → Except String Bytes
  | .conversation info => conversationPayload info
  | .forward info => forwardPayload info.target info.envelope
  | .archiveGrant info => archiveGrantPayload info
  | .attachment info => attachmentPayload info
  | .deleteRequest info => deleteRequestPayload info
  | .deleteAccept info => deleteAcceptPayload info
  | .checkpoint info => checkpointPayload info.number info.hash
  | .receipt info => receiptPayload info.kind info.messageIds

/-- A text and a send token are bytes. -/
def parse : RecordType → Bytes → Option Payload
  | .conversation, b => (parseConversationPayload b).map .conversation
  | .forward, b => (parseForwardPayload b).map .forward
  | .archiveGrant, b => (parseArchiveGrantPayload b).map .archiveGrant
  | .attachment, b => (parseAttachmentPayload b).map .attachment
  | .deleteRequest, b => (parseDeleteRequestPayload b).map .deleteRequest
  | .deleteAccept, b => (parseDeleteAcceptPayload b).map .deleteAccept
  | .checkpoint, b => (parseCheckpointPayload b).map .checkpoint
  | .receipt, b => (parseReceiptPayload b).map .receipt
  | .text, _ | .tokenGrant, _ => none

/-- What two of the writers do not check. -/
def Regular : Payload → Prop
  | .receipt info => ∀ id ∈ info.messageIds, id.length = idBytes
  | .deleteRequest info => info.entries.Nodup
  | .conversation _ | .forward _ | .archiveGrant _ | .attachment _ | .deleteAccept _ | .checkpoint _ => True

theorem map_eq_some_iff {α : Type} {parse : Bytes → Option α} {write : α → Except String Bytes}
    {ok : α → Prop} {kind : α → Payload} {a : α} {b : Bytes} (h : Undoes parse write ok)
    (hkind : Function.Injective kind) (hwrite : write a = .ok b) :
    (parse b).map kind = some (kind a) ↔ ok a := by
  rw [← h.parse_eq_some_iff hwrite, Option.map_eq_some_iff]
  constructor
  · rintro ⟨a', ha', heq⟩
    rwa [← hkind heq]
  · exact fun ha => ⟨a, ha, rfl⟩

theorem write_of_map {α : Type} {parse : Bytes → Option α} {write : α → Except String Bytes}
    {ok : α → Prop} {kind : α → Payload} {p : Payload} {b : Bytes} (h : Undoes parse write ok)
    (hparse : (parse b).map kind = some p) : ∃ a, p = kind a ∧ write a = .ok b := by
  obtain ⟨a, ha, rfl⟩ := Option.map_eq_some_iff.1 hparse
  exact ⟨a, rfl, (h.writes b a ha).2⟩

/-- What is written of a value is read back exactly if the IDs of a receipt have their size and the
entries of a request for deletion differ, and what is read is what is written of it. -/
theorem payload_comes_back_iff (p : Payload) (b : Bytes) :
    (write p = .ok b → (parse p.type b = some p ↔ p.Regular)) ∧
    ∀ t, parse t b = some p → p.type = t ∧ write p = .ok b := by
  constructor
  · intro h
    cases p with
    | conversation => exact map_eq_some_iff undoes_conversation (fun _ _ => Payload.conversation.inj) h
    | forward => exact map_eq_some_iff undoes_forward (fun _ _ => Payload.forward.inj) h
    | archiveGrant => exact map_eq_some_iff undoes_archiveGrant (fun _ _ => Payload.archiveGrant.inj) h
    | attachment => exact map_eq_some_iff undoes_attachment (fun _ _ => Payload.attachment.inj) h
    | deleteRequest => exact map_eq_some_iff undoes_deleteRequest (fun _ _ => Payload.deleteRequest.inj) h
    | deleteAccept => exact map_eq_some_iff undoes_deleteAccept (fun _ _ => Payload.deleteAccept.inj) h
    | checkpoint => exact map_eq_some_iff undoes_checkpoint (fun _ _ => Payload.checkpoint.inj) h
    | receipt => exact map_eq_some_iff undoes_receipt (fun _ _ => Payload.receipt.inj) h
  · intro t h
    cases t with
    | conversation =>
      obtain ⟨a, rfl, hwrite⟩ := write_of_map undoes_conversation h
      exact ⟨rfl, hwrite⟩
    | forward =>
      obtain ⟨a, rfl, hwrite⟩ := write_of_map undoes_forward h
      exact ⟨rfl, hwrite⟩
    | archiveGrant =>
      obtain ⟨a, rfl, hwrite⟩ := write_of_map undoes_archiveGrant h
      exact ⟨rfl, hwrite⟩
    | attachment =>
      obtain ⟨a, rfl, hwrite⟩ := write_of_map undoes_attachment h
      exact ⟨rfl, hwrite⟩
    | deleteRequest =>
      obtain ⟨a, rfl, hwrite⟩ := write_of_map undoes_deleteRequest h
      exact ⟨rfl, hwrite⟩
    | deleteAccept =>
      obtain ⟨a, rfl, hwrite⟩ := write_of_map undoes_deleteAccept h
      exact ⟨rfl, hwrite⟩
    | checkpoint =>
      obtain ⟨a, rfl, hwrite⟩ := write_of_map undoes_checkpoint h
      exact ⟨rfl, hwrite⟩
    | receipt =>
      obtain ⟨a, rfl, hwrite⟩ := write_of_map undoes_receipt h
      exact ⟨rfl, hwrite⟩
    | text | tokenGrant => exact nomatch h

/-- A receipt for two messages, and a request for two entries. -/
theorem payload_comes_back_sample :
    (∃ b, receiptPayload .read [List.replicate 16 1, List.replicate 16 2] = .ok b ∧
      parse .receipt b = some (.receipt ⟨.read, [List.replicate 16 1, List.replicate 16 2]⟩)) ∧
    ∃ b, deleteRequestPayload ⟨.entries, List.replicate 16 1, 2, [List.replicate 32 3, List.replicate 32 4]⟩ =
        .ok b ∧
      parse .deleteRequest b = some (.deleteRequest
        ⟨.entries, List.replicate 16 1, 2, [List.replicate 32 3, List.replicate 32 4]⟩) := by
  refine ⟨⟨_, rfl, ?_⟩, ⟨_, rfl, ?_⟩⟩
  · refine ((payload_comes_back_iff (.receipt ⟨.read, [List.replicate 16 1, List.replicate 16 2]⟩) _).1
      rfl).2 ?_
    change ∀ id ∈ [List.replicate 16 1, List.replicate 16 2], id.length = idBytes
    decide
  · refine ((payload_comes_back_iff (.deleteRequest
      ⟨.entries, List.replicate 16 1, 2, [List.replicate 32 3, List.replicate 32 4]⟩) _).1 rfl).2 ?_
    change [List.replicate 32 3, List.replicate 32 4].Nodup
    decide

/-- A receipt with an ID of one byte is written and not read, and so is a request that names an entry
twice. -/
theorem irregular_not_read :
    (∃ b, write (.receipt ⟨.read, [[1]]⟩) = .ok b ∧ parse .receipt b = none) ∧
    ∃ b, write (.deleteRequest ⟨.entries, List.replicate 16 1, 2, [List.replicate 32 3, List.replicate 32 3]⟩) =
        .ok b ∧
      parse .deleteRequest b = none :=
  ⟨⟨_, rfl, by decide +kernel⟩, ⟨_, rfl, by decide +kernel⟩⟩

end Payload

end PqSuite.Chat
