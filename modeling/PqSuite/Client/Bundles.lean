import Mathlib.Algebra.Order.BigOperators.Group.List
import PqSuite.Client.Contacts

/-!
# Identity bundles

A bundle is a list of typed fields in any order, signed as a whole. What `create_identity_bundle` writes is
read back as it was given. What `parse_identity_bundle` accepts is the spelling of a list of fields in which
every type that this version knows comes at most once, so that there is one way to read it.
-/

namespace PqSuite.IdentityBundle

open Reader

variable {C : ChatCrypto} {fields : List (UInt32 × Bytes)} {a : Address} {f : Fields}

/-! ## Fields by their types -/

/-- The types that this version knows. -/
def known : List UInt32 := [1, 2, 3, 5, 6, 16]

def Fields.get (f : Fields) : UInt32 → Option Bytes
  | 1 => f.signingKey
  | 2 => f.encryptionKey
  | 3 => f.displayName
  | 5 => f.relayId
  | 6 => f.mailboxId
  | 16 => f.relayHint
  | _ => none

theorem Fields.get_empty (t : UInt32) : Fields.get {} t = none := by
  unfold Fields.get
  split <;> rfl

structure Sized (type : UInt32) (value : Bytes) : Prop where
  displayName : type = 3 → value.length ≤ maxDisplayNameBytes
  relayHint : type = 16 → value.length ≤ maxRelayHintBytes
  relayId : type = 5 → value.length = 32
  mailboxId : type = 6 → value.length = 16

theorem known_cases {P : UInt32 → Prop} (h1 : P 1) (h2 : P 2) (h3 : P 3) (h5 : P 5) (h6 : P 6) (h16 : P 16) :
    ∀ t ∈ known, P t := by
  simp only [known, List.forall_mem_cons, List.not_mem_nil, false_implies, implies_true, and_true]
  exact ⟨h1, h2, h3, h5, h6, h16⟩

/-- A field from a newer version changes nothing. -/
theorem add_of_not_known {t : UInt32} (value : Bytes) (h : t ∉ known) : f.add (t, value) = some f := by
  unfold Fields.add
  split
  case h_7 => rfl
  all_goals
    rename_i heq
    cases heq
    exact absurd (by decide) h

/-- A known field is new and has the right length, and nothing else changes. -/
structure Adds (f : Fields) (t : UInt32) (value : Bytes) (f' : Fields) : Prop where
  new : f.get t = none
  got : f'.get t = some value
  sized : Sized t value
  others : ∀ u ∈ known, u ≠ t → f'.get u = f.get u

theorem adds_of_add {value : Bytes} :
    ∀ t ∈ known, ∀ f', f.add (t, value) = some f' → Adds f t value f' := by
  refine known_cases ?_ ?_ ?_ ?_ ?_ ?_
  all_goals
    intro f' h
    simp only [Fields.add] at h
    split_ifs at h with hrefused
    obtain rfl := Option.some.inj h
    refine ⟨?_, rfl, ?_, ?_⟩
    · first
        | exact Option.not_isSome_iff_eq_none.1 hrefused
        | exact Option.not_isSome_iff_eq_none.1 (not_or.1 hrefused).1
    · constructor <;> intro htype
      all_goals first
        | exact absurd htype (by decide)
        | exact not_lt.1 (not_or.1 hrefused).2
        | exact not_not.1 (not_or.1 hrefused).2
    · refine known_cases ?_ ?_ ?_ ?_ ?_ ?_ <;> intro hne
      all_goals first
        | rfl
        | exact absurd rfl hne

def count (t : UInt32) (fields : List (UInt32 × Bytes)) : ℕ := (fields.filter (·.1 = t)).length

/-- A list of fields, from any state: a known type that was there before is not among them, and any other
known type is so at most once, and then its value is what is read. -/
theorem foldlM_add {f' : Fields} (h : fields.foldlM Fields.add f = some f') :
    ∀ t ∈ known, (∀ value, f.get t = some value → f'.get t = some value ∧ count t fields = 0) ∧
      (f.get t = none → f'.get t = fields.lookup t ∧ count t fields ≤ 1 ∧
        ∀ value, f'.get t = some value → Sized t value) := by
  induction fields generalizing f with
  | nil =>
    obtain rfl := Option.some.inj h
    refine fun t ht => ⟨fun value hvalue => ⟨hvalue, rfl⟩,
      fun hnone => ⟨hnone, Nat.zero_le _, fun value hvalue => ?_⟩⟩
    rw [hnone] at hvalue
    cases hvalue
  | cons field fields ih =>
    obtain ⟨type, value⟩ := field
    rw [List.foldlM_cons] at h
    obtain ⟨g, hadd, hrest⟩ := Option.bind_eq_some_iff.1 h
    intro t ht
    obtain ⟨hthere, hnew⟩ := ih hrest t ht
    by_cases hsame : type = t
    · subst hsame
      have hadds := adds_of_add type ht g hadd
      obtain ⟨hgot, hcount⟩ := hthere value hadds.got
      have hcons : count type ((type, value) :: fields) = count type fields + 1 := by
        rw [count, List.filter_cons_of_pos (by simp), List.length_cons]
        rfl
      refine ⟨fun value' hvalue' => ?_, fun _ => ⟨?_, by omega, fun value' hvalue' => ?_⟩⟩
      · rw [hadds.new] at hvalue'
        cases hvalue'
      · rw [hgot, List.lookup_cons, beq_self_eq_true]
      · rw [hgot] at hvalue'
        obtain rfl := Option.some.inj hvalue'
        exact hadds.sized
    · have hkeep : g.get t = f.get t := by
        by_cases hknown : type ∈ known
        · exact (adds_of_add type hknown g hadd).others t ht (Ne.symm hsame)
        · rw [add_of_not_known value hknown] at hadd
          rw [Option.some.inj hadd]
      have hcons : count t ((type, value) :: fields) = count t fields := by
        rw [count, List.filter_cons_of_neg (by simpa using hsame)]
        rfl
      have hlookup : List.lookup t ((type, value) :: fields) = fields.lookup t := by
        rw [List.lookup_cons, beq_false_of_ne (Ne.symm hsame)]
      rw [hkeep] at hthere hnew
      rw [hcons, hlookup]
      exact ⟨hthere, hnew⟩

/-! ## Bodies -/

theorem reads_body {issuedAt : UInt64} (hcount : fields.length ≤ maxFields)
    (hlengths : ∀ x ∈ fields, x.2.length ≤ maxBodyBytes) (hadd : fields.foldlM Fields.add {} = some f) :
    Reads bodyReader (writeBody issuedAt fields) (issuedAt, f) := by
  have hfields : Reads (many fields.length fieldReader)
      (fields.map writeField).flatten fields := by
    refine reads_many (List.forall₂_map_left_iff.2 (List.forall₂_same.2 fun x hx => ?_))
    exact (reads_u32 x.1).bind ((reads_blob (hlengths x hx) (by decide)).last (reads_pure x))
  have hlen : (UInt32.ofNat fields.length).toNat = fields.length := by
    rw [UInt32.toNat_ofNat', Nat.mod_eq_of_lt]
    unfold maxFields at hcount
    omega
  have hread : Reads bodyReader (writeU32 magic ++
      (writeU32 version ++ (writeU64 issuedAt ++ (writeU32 (UInt32.ofNat fields.length) ++
        (fields.map writeField).flatten)))) (issuedAt, f) := by
    refine (reads_u32 _).bind <| (reads_u32 _).bind <| (reads_u64 _).bind <| (reads_u32 _).bind <|
      .check ⟨rfl, rfl, hlen.trans_le hcount⟩ ?_
    rw [hlen]
    exact hfields.last <| (reads_lift hadd).last <| reads_pure _
  simpa only [writeBody, List.append_assoc, List.flatMap_def] using hread

/-- A body that is read is the spelling of its fields. -/
theorem body_eq {body : Bytes} {issuedAt : UInt64} (h : whole bodyReader body = some (issuedAt, f)) :
    ∃ fields, body = writeBody issuedAt fields ∧ fields.length ≤ maxFields ∧
      fields.foldlM Fields.add {} = some f := by
  have hrun := whole_eq_some h
  unfold bodyReader at hrun
  obtain ⟨m, afterMagic, -, hm, hrun⟩ := exact_u32.of_run hrun
  obtain ⟨v, afterVersion, -, hv, hrun⟩ := exact_u32.of_run hrun
  obtain ⟨issued, afterIssued, -, hissued, hrun⟩ := exact_u64.of_run hrun
  obtain ⟨n, afterCount, -, hn, hrun⟩ := exact_u32.of_run hrun
  obtain ⟨⟨hmagic, hversion, hcount⟩, hrun⟩ := of_run_check hrun
  have hfield : Exact fieldReader (fun p => True ∧ p.2.length ≤ maxBodyBytes) writeField :=
    exact_u32.pair (exact_blob (by decide))
  obtain ⟨fields, rest, ⟨hlength, -⟩, hfields, hrun⟩ := (hfield.many n.toNat).of_run hrun
  obtain ⟨g, hadd, hrun⟩ := of_run_lift hrun
  obtain ⟨hsame, rfl⟩ := of_run_pure hrun
  obtain ⟨rfl, rfl⟩ := Prod.mk.inj hsame
  refine ⟨fields, ?_, by rwa [hlength], hadd⟩
  rw [hm, hv, hissued, hn, hfields, List.append_nil, writeBody, hlength, UInt32.ofNat_toNat, hmagic, hversion]
  simp only [List.append_assoc]

/-! ## Created bundles -/

/-- ML-DSA-65 and ML-KEM-768, and two halves of a signing key. -/
structure KeyPair (C : ChatCrypto) (publicKey privateKey : Bytes) : Prop where
  signingSize : C.sigPublicKeySize = 1952
  encryptionSize : C.kemPublicKeySize = 1184
  signatureSize : ∀ message signature, C.sign message privateKey = .ok signature → signature.length = 3309
  verifies : ∀ message signature, C.sign message privateKey = .ok signature →
    C.verify message signature publicKey = true

structure Creatable (C : ChatCrypto) (sp ep name : Bytes) (a : Address) : Prop where
  signingKey : sp.length = C.sigPublicKeySize
  encryptionKey : ep.length = C.kemPublicKeySize
  name : name.length ≤ maxDisplayNameBytes
  hint : a.relayHint.length ≤ maxRelayHintBytes
  mailbox : a.anyMailbox = true → a.relayHint ≠ [] ∧ a.relayId.length = 32 ∧ a.mailboxId.length = 16

theorem create_eq_ok {sp ep name : Bytes} {issued : UInt64} {priv raw : Bytes} :
    createIdentityBundle C sp ep name a issued priv = .ok raw ↔ Creatable C sp ep name a ∧ ∃ signature,
      C.sign (signingInput (writeBody issued (fieldsOf sp ep name a))) priv = .ok signature ∧
      raw = writeBlob (writeBody issued (fieldsOf sp ep name a)) ++ writeBlob signature := by
  constructor
  · intro h
    unfold createIdentityBundle at h
    split_ifs at h with hkeys hname hhint hmailbox
    simp only at h
    split at h
    · rename_i signature hsign
      obtain ⟨hsp, hep⟩ := not_or.1 hkeys
      refine ⟨⟨not_not.1 hsp, not_not.1 hep, not_lt.1 hname, not_lt.1 hhint, fun hany => ?_⟩, signature,
        hsign, (Except.ok.inj h).symm⟩
      obtain ⟨hne, hsizes⟩ := not_or.1 fun hbad => hmailbox ⟨hany, hbad⟩
      obtain ⟨hrelay, hid⟩ := not_or.1 hsizes
      exact ⟨hne, not_not.1 hrelay, not_not.1 hid⟩
    · cases h
  · rintro ⟨hok, signature, hsign, rfl⟩
    unfold createIdentityBundle
    rw [if_neg (not_or.2 ⟨not_not.2 hok.signingKey, not_not.2 hok.encryptionKey⟩), if_neg (not_lt.2 hok.name),
      if_neg (not_lt.2 hok.hint), if_neg]
    · simp only [hsign]
    · rintro ⟨hany, hbad⟩
      obtain ⟨hne, hrelay, hid⟩ := hok.mailbox hany
      exact hbad.elim hne fun h => h.elim (fun h => h hrelay) fun h => h hid

/-- An empty value is left out. -/
def present (value : Bytes) : Option Bytes := if value = [] then none else some value

theorem getD_present (value : Bytes) : (present value).getD [] = value := by
  unfold present
  split_ifs with h
  · exact h.symm
  · rfl

section

variable {f : Fields} {value : Bytes} {a : Address}

theorem foldlM_name (hnone : f.displayName = none) (h : value.length ≤ maxDisplayNameBytes) :
    (if value = [] then [] else [((3 : UInt32), value)]).foldlM Fields.add f =
      some { f with displayName := present value } := by
  unfold present
  split_ifs
  · rw [← hnone]
    rfl
  · simp [Fields.add, hnone, not_lt.2 h]

theorem foldlM_hint (hnone : f.relayHint = none) (h : value.length ≤ maxRelayHintBytes) :
    (if value = [] then [] else [((16 : UInt32), value)]).foldlM Fields.add f =
      some { f with relayHint := present value } := by
  unfold present
  split_ifs
  · rw [← hnone]
    rfl
  · simp [Fields.add, hnone, not_lt.2 h]

theorem foldlM_mailbox (hrelay : f.relayId = none) (hmailbox : f.mailboxId = none)
    (h : a.anyMailbox = true → a.relayHint ≠ [] ∧ a.relayId.length = 32 ∧ a.mailboxId.length = 16) :
    (if a.anyMailbox then [((5 : UInt32), a.relayId), (6, a.mailboxId)] else []).foldlM Fields.add f =
      some { f with relayId := present a.relayId, mailboxId := present a.mailboxId } := by
  split_ifs with hany
  · obtain ⟨-, hrelayId, hmailboxId⟩ := h hany
    have hrelayId' : a.relayId ≠ [] := List.ne_nil_of_length_eq_add_one hrelayId
    have hmailboxId' : a.mailboxId ≠ [] := List.ne_nil_of_length_eq_add_one hmailboxId
    simp [Fields.add, present, hrelay, hmailbox, hrelayId, hmailboxId, hrelayId', hmailboxId']
  · simp only [Address.anyMailbox, Bool.or_eq_true, decide_eq_true_eq, not_or, not_not] at hany
    rw [hany.1, hany.2, present, if_pos rfl]
    cases f
    cases hrelay
    cases hmailbox
    rfl

end

theorem foldlM_fieldsOf {sp ep name : Bytes} (h : Creatable C sp ep name a) :
    (fieldsOf sp ep name a).foldlM Fields.add {} =
      some ⟨some sp, some ep, present name, present a.relayHint, present a.relayId, present a.mailboxId⟩ := by
  have hkeys : [((1 : UInt32), sp), (2, ep)].foldlM Fields.add {} =
      some { signingKey := some sp, encryptionKey := some ep } := rfl
  rw [fieldsOf, List.foldlM_append, List.foldlM_append, List.foldlM_append, hkeys]
  simp only [Option.bind_eq_bind, Option.bind_some]
  rw [foldlM_name rfl h.name, Option.bind_some, foldlM_mailbox rfl rfl h.mailbox, Option.bind_some,
    foldlM_hint rfl h.hint]

theorem length_fields (fields : List (UInt32 × Bytes)) :
    (fields.flatMap writeField).length = (fields.map fun field => 8 + field.2.length).sum := by
  induction fields with
  | nil => rfl
  | cons field fields ih =>
    rw [List.flatMap_cons, List.length_append, ih, List.map_cons, List.sum_cons, writeField,
      List.length_append, length_writeU32, length_writeBlob]
    omega

theorem length_body_le {sp ep name : Bytes} {priv : Bytes} {issued : UInt64} (hkeys : KeyPair C sp priv)
    (h : Creatable C sp ep name a) : (writeBody issued (fieldsOf sp ep name a)).length ≤ 4096 := by
  have hsp : sp.length = 1952 := h.signingKey.trans hkeys.signingSize
  have hep : ep.length = 1184 := h.encryptionKey.trans hkeys.encryptionSize
  have hname : name.length ≤ 64 := h.name
  have hhint : a.relayHint.length ≤ 255 := h.hint
  have hmailbox : a.anyMailbox = true → a.relayId.length = 32 ∧ a.mailboxId.length = 16 := fun hany =>
    (h.mailbox hany).2
  have hsum : ((fieldsOf sp ep name a).map fun field => 8 + field.2.length).sum ≤ 4000 := by
    unfold fieldsOf
    split_ifs <;> simp [*] <;> omega
  simp only [writeBody, List.length_append, length_writeU32, length_writeU64, length_fields]
  omega

theorem length_value_le {issued : UInt64} {x : UInt32 × Bytes} (hx : x ∈ fields) :
    x.2.length ≤ (writeBody issued fields).length := by
  have hmem := List.single_le_sum (fun _ _ => Nat.zero_le _) _
    (List.mem_map_of_mem (f := fun field : UInt32 × Bytes => 8 + field.2.length) hx)
  simp only [writeBody, List.length_append, length_fields]
  omega

theorem length_fieldsOf_le (sp ep name : Bytes) (a : Address) : (fieldsOf sp ep name a).length ≤ 6 := by
  unfold fieldsOf
  split_ifs <;> simp

theorem parse_created {sp ep name : Bytes} {issued : UInt64} {priv raw : Bytes}
    (hkeys : KeyPair C sp priv) (h : createIdentityBundle C sp ep name a issued priv = .ok raw) :
    parseIdentityBundle C raw = some ⟨issued, sp, ep, name, a.relayHint, a.relayId, a.mailboxId, raw⟩ := by
  obtain ⟨hok, signature, hsign, rfl⟩ := create_eq_ok.1 h
  have hroom : (writeBody issued (fieldsOf sp ep name a)).length ≤ maxBodyBytes :=
    (length_body_le hkeys hok).trans (by decide)
  have hbody : Reads bodyReader (writeBody issued (fieldsOf sp ep name a)) _ :=
    reads_body ((length_fieldsOf_le sp ep name a).trans (by decide))
      (fun x hx => (length_value_le hx).trans hroom) (foldlM_fieldsOf hok)
  have hraw : Reads rawReader (writeBlob (writeBody issued (fieldsOf sp ep name a)) ++ writeBlob signature)
      (writeBody issued (fieldsOf sp ep name a), signature) :=
    (reads_blob hroom (by decide)).bind
      ((reads_blob (by rw [hkeys.signatureSize _ _ hsign]; decide) (by decide)).last (reads_pure _))
  unfold parseIdentityBundle
  simp only [hraw.whole_eq, hbody.whole_eq, Option.bind_eq_bind, Option.bind_some, getD_present]
  rw [if_neg, if_neg, if_neg]
  · exact not_not.2 (hkeys.verifies _ _ hsign)
  · exact not_or.2 ⟨not_not.2 hok.signingKey, not_not.2 hok.encryptionKey⟩
  · rintro ⟨hsome, hincomplete⟩
    have hany : a.anyMailbox = true := by
      simp only [present, Address.anyMailbox, Bool.or_eq_true, decide_eq_true_eq] at hsome ⊢
      refine hsome.imp (fun h hnil => ?_) fun h hnil => ?_
      · rw [if_pos hnil] at h
        cases h
      · rw [if_pos hnil] at h
        cases h
    obtain ⟨hhint, hrelay, hmailbox⟩ := hok.mailbox hany
    refine hincomplete ?_
    simp only [hasMailbox, Bool.and_eq_true, decide_eq_true_eq]
    exact ⟨⟨hhint, List.ne_nil_of_length_eq_add_one hrelay⟩, List.ne_nil_of_length_eq_add_one hmailbox⟩

theorem length_created_le {sp ep name : Bytes} {issued : UInt64} {priv raw : Bytes}
    (hkeys : KeyPair C sp priv) (h : createIdentityBundle C sp ep name a issued priv = .ok raw) :
    raw.length ≤ 8192 := by
  obtain ⟨hok, signature, hsign, rfl⟩ := create_eq_ok.1 h
  have hbody : (writeBody issued (fieldsOf sp ep name a)).length ≤ 4096 := length_body_le hkeys hok
  rw [List.length_append, length_writeBlob, length_writeBlob, hkeys.signatureSize _ _ hsign]
  omega

/-! ## Accepted bundles -/

structure Accepted (C : ChatCrypto) (b : IdentityBundle) (body signature : Bytes)
    (fields : List (UInt32 × Bytes)) : Prop where
  /-- The bytes are the body and its signature, and the body the fields, with those of unknown types. -/
  parts : b.raw = writeBlob body ++ writeBlob signature
  spelling : body = writeBody b.issuedAt fields
  once : ∀ t ∈ known, count t fields ≤ 1
  signingKey : fields.lookup 1 = some b.signingKey
  encryptionKey : fields.lookup 2 = some b.encryptionKey
  displayName : (fields.lookup 3).getD [] = b.displayName
  relayId : (fields.lookup 5).getD [] = b.relayId
  mailboxId : (fields.lookup 6).getD [] = b.mailboxId
  relayHint : (fields.lookup 16).getD [] = b.relayHint
  keySizes : b.signingKey.length = C.sigPublicKeySize ∧ b.encryptionKey.length = C.kemPublicKeySize
  mailbox : b.relayId = [] ∧ b.mailboxId = [] ∨
    b.relayHint ≠ [] ∧ b.relayId.length = 32 ∧ b.mailboxId.length = 16
  signed : C.verify (signingInput body) signature b.signingKey = true

theorem accepted_of_parse {raw : Bytes} {b : IdentityBundle} (h : parseIdentityBundle C raw = some b) :
    b.raw = raw ∧
      ∃ body signature fields, Accepted C b body signature fields := by
  simp only [parseIdentityBundle, Option.bind_eq_bind, Option.bind_eq_some_iff] at h
  obtain ⟨⟨body, signature⟩, hraw, ⟨issuedAt, f⟩, hbody, sp, hsp, ep, hep, h⟩ := h
  rw [Option.ite_none_left_eq_some, Option.ite_none_left_eq_some, Option.ite_none_left_eq_some] at h
  obtain ⟨hmailbox, hsizes, hverify, hb⟩ := h
  obtain rfl := Option.some.inj hb
  obtain ⟨fields, hspelling, -, hadd⟩ := body_eq hbody
  have hget : ∀ t ∈ known, f.get t = fields.lookup t ∧ count t fields ≤ 1 ∧ ∀ value, f.get t = some value →
      Sized t value := fun t ht => (foldlM_add hadd t ht).2 (Fields.get_empty t)
  have hrelay : f.relayId = fields.lookup 5 := (hget 5 (by decide)).1
  have hid : f.mailboxId = fields.lookup 6 := (hget 6 (by decide)).1
  have hhint : f.relayHint = fields.lookup 16 := (hget 16 (by decide)).1
  have hname : f.displayName = fields.lookup 3 := (hget 3 (by decide)).1
  obtain ⟨hspSize, hepSize⟩ := not_or.1 hsizes
  refine ⟨rfl, body, signature, fields, (whole_signed (by decide) (by decide) hraw).1, hspelling,
    fun t ht => (hget t ht).2.1, (hget 1 (by decide)).1.symm.trans hsp, (hget 2 (by decide)).1.symm.trans hep,
    by rw [← hname], by rw [← hrelay], by rw [← hid], by rw [← hhint],
    ⟨not_not.1 hspSize, not_not.1 hepSize⟩, ?_, not_not.1 hverify⟩
  by_cases hsome : f.relayId.isSome = true ∨ f.mailboxId.isSome = true
  · have hcomplete := not_not.1 fun hincomplete => hmailbox ⟨hsome, hincomplete⟩
    simp only [hasMailbox, Bool.and_eq_true, decide_eq_true_eq] at hcomplete
    obtain ⟨⟨hhintSome, hrelaySome⟩, hidSome⟩ := hcomplete
    refine .inr ⟨hhintSome, ?_, ?_⟩
    · cases hr : f.relayId with
      | none => exact absurd (by rw [hr]; rfl) hrelaySome
      | some r => exact ((hget 5 (by decide)).2.2 r hr).relayId rfl
    · cases hm : f.mailboxId with
      | none => exact absurd (by rw [hm]; rfl) hidSome
      | some m => exact ((hget 6 (by decide)).2.2 m hm).mailboxId rfl
  · obtain ⟨hr, hm⟩ := not_or.1 hsome
    rw [Option.not_isSome_iff_eq_none] at hr hm
    exact .inl ⟨by rw [hr]; rfl, by rw [hm]; rfl⟩

/-- A bundle that was made is read back as it was given. What is accepted has each known field at most once,
keys of the right sizes, a mailbox address that is complete or not there, and a signature over all of the
body, which with the signature is all there is. -/
theorem bundles_read_one_way (C : ChatCrypto) :
    (∀ sp ep name a issued priv raw, KeyPair C sp priv →
      createIdentityBundle C sp ep name a issued priv = .ok raw →
      parseIdentityBundle C raw = some ⟨issued, sp, ep, name, a.relayHint, a.relayId, a.mailboxId, raw⟩) ∧
    (∀ raw b, parseIdentityBundle C raw = some b →
      b.raw = raw ∧ ∃ body signature fields, Accepted C b body signature fields) ∧
    ∀ body body', signingInput body = signingInput body' → body = body' :=
  ⟨fun _ _ _ _ _ _ _ hkeys h => parse_created hkeys h, fun _ _ h => accepted_of_parse h,
    fun _ _ h => List.append_cancel_left h⟩

/-- Keys of the right sizes, and a signature that anybody can make. -/
def sampleCrypto : ChatCrypto where
  sha256 _ := Relay.byteSum [1]
  sign _ _ := .ok (List.replicate 3309 0)
  verify _ _ _ := true
  sigPublicKeySize := 1952
  kemPublicKeySize := 1184

theorem sampleCrypto_keyPair (publicKey privateKey : Bytes) : KeyPair sampleCrypto publicKey privateKey where
  signingSize := rfl
  encryptionSize := rfl
  signatureSize _ signature h := by
    rw [← Except.ok.inj h]
    exact List.length_replicate
  verifies _ _ _ := rfl

/-- A name and a relay without a mailbox. -/
theorem bundles_read_one_way_sample : ∃ raw,
    createIdentityBundle sampleCrypto (List.replicate 1952 1) (List.replicate 1184 2) (ascii "Ann")
      { relayHint := ascii "a:1" } 5 [] = .ok raw ∧
    parseIdentityBundle sampleCrypto raw = some ⟨5, List.replicate 1952 1, List.replicate 1184 2, ascii "Ann",
      ascii "a:1", [], [], raw⟩ := by
  have hok : Creatable sampleCrypto (List.replicate 1952 1) (List.replicate 1184 2) (ascii "Ann")
      { relayHint := ascii "a:1" } :=
    ⟨List.length_replicate, List.length_replicate, by decide, by decide, fun hany => by cases hany⟩
  have hmade := (@create_eq_ok _ _ _ _ _ 5 [] _).2 ⟨hok, _, rfl, rfl⟩
  exact ⟨_, hmade, (bundles_read_one_way sampleCrypto).1 _ _ _ _ 5 [] _ (sampleCrypto_keyPair _ _) hmade⟩

end PqSuite.IdentityBundle
