import PqSuite.Lib.Worklist
import PqSuite.Server.Operations

/-!
# Removing a mailbox with everyone it invited (`relay_service.cpp`)

The operator removes a mailbox, the mailboxes it invited, those that they invited, and so on. Who
invited whom is what the rows say: an inviter may be gone, and an ID that was registered again may close
a circle.
-/

namespace PqSuite.Relay

namespace RelayStore

structure Member where
  id : Bytes
  createdAt : Time
  /-- Empty if the operator invited it. -/
  invitedBy : Bytes
  envelopes : ℕ

def members (s : RelayStore) : List Member :=
  (s.mailboxes.mergeSort fun a b =>
    a.createdAt < b.createdAt ∨ (a.createdAt = b.createdAt ∧ a.id ≤ b.id)).map fun r =>
      ⟨r.id, r.createdAt, r.invitedBy.getD [], (s.envelopes.filter (·.mailboxId = r.id)).length⟩

/-- The mailbox and, if asked for, everyone reachable by following "invited by" downwards. -/
def doomed (s : RelayStore) (mailboxId : Bytes) (withInvitees : Bool) : List Bytes :=
  if withInvitees then Worklist.close (s.members.map fun m => (m.invitedBy, m.id)) 0 [mailboxId]
  else [mailboxId]

def removeNext (removed : ℕ × RelayStore) (mailboxId : Bytes) : ℕ × RelayStore :=
  (if (removed.2.accessKey mailboxId).isSome then removed.1 + 1 else removed.1,
    removed.2.deleteMailbox mailboxId)

def removeMailbox (s : RelayStore) (mailboxId : Bytes) (withInvitees : Bool) : ℕ × RelayStore :=
  (s.doomed mailboxId withInvitees).foldl removeNext (0, s)

/-! ## Deleting several mailboxes -/

/-- Everything that belongs to one of these mailboxes is gone, and nothing else is. The history of the
uploads notes whose files went. -/
structure Removed (gone : List Bytes) (s s' : RelayStore) : Prop where
  mailboxes : s'.mailboxes = s.mailboxes.filter (·.id ∉ gone)
  invites : s'.invites = s.invites.filter fun r => ∀ mb ∈ gone, r.issuedBy ≠ some mb
  tokens : s'.tokens = s.tokens.filter (·.mailboxId ∉ gone)
  envelopes : s'.envelopes = s.envelopes.filter (·.mailboxId ∉ gone)
  prekeyPools : s'.prekeyPools = s.prekeyPools.filter (·.mailboxId ∉ gone)
  prekeys : s'.prekeys = s.prekeys.filter (·.mailboxId ∉ gone)
  keyrings : s'.keyrings = s.keyrings.filter (·.mailboxId ∉ gone)
  files : s'.files = s.files.filter (·.owner ∉ gone)
  fileTokens : s'.fileTokens =
    s.fileTokens.filter fun t => ∀ f ∈ s.files, f.id = t.fileId → f.owner ∉ gone
  others : { s' with
    mailboxes := s.mailboxes, invites := s.invites, tokens := s.tokens, envelopes := s.envelopes
    prekeyPools := s.prekeyPools, prekeys := s.prekeys, keyrings := s.keyrings, files := s.files
    fileTokens := s.fileTokens, uploads := s.uploads } = s

variable {s s' : RelayStore}

theorem filter_notMem_cons {ρ : Type} (key : ρ → Bytes) (mb : Bytes) (gone : List Bytes) (l : List ρ) :
    (l.filter (key · ≠ mb)).filter (key · ∉ gone) = l.filter (key · ∉ mb :: gone) := by
  rw [List.filter_filter]
  refine List.filter_congr fun r _ => ?_
  simp [Bool.and_comm]

theorem removed_foldl (gone : List Bytes) (s : RelayStore) :
    Removed gone s (gone.foldl deleteMailbox s) := by
  induction gone generalizing s with
  | nil => constructor <;> simp
  | cons mb gone ih =>
    have h := ih (s.deleteMailbox mb)
    rw [List.foldl_cons]
    constructor
    · exact h.mailboxes.trans (filter_notMem_cons MailboxRow.id mb gone s.mailboxes)
    · rw [h.invites]
      change (s.invites.filter (·.issuedBy ≠ some mb)).filter _ = _
      rw [List.filter_filter]
      refine List.filter_congr fun r _ => ?_
      simp [Bool.and_comm]
    · exact h.tokens.trans (filter_notMem_cons TokenRow.mailboxId mb gone s.tokens)
    · exact h.envelopes.trans (filter_notMem_cons EnvelopeRow.mailboxId mb gone s.envelopes)
    · exact h.prekeyPools.trans (filter_notMem_cons PrekeyPoolRow.mailboxId mb gone s.prekeyPools)
    · exact h.prekeys.trans (filter_notMem_cons PrekeyRow.mailboxId mb gone s.prekeys)
    · exact h.keyrings.trans (filter_notMem_cons KeyringRow.mailboxId mb gone s.keyrings)
    · exact h.files.trans (filter_notMem_cons FileRow.owner mb gone s.files)
    · rw [h.fileTokens]
      change (s.fileTokens.filter fun t => !s.files.any fun f => f.id = t.fileId ∧ f.owner = mb).filter _ = _
      rw [List.filter_filter]
      refine List.filter_congr fun t _ => ?_
      -- a file of the first mailbox is found by the first deletion, any other by the ones after it
      rw [Bool.eq_iff_iff]
      simp only [deleteMailbox, Bool.and_eq_true, decide_eq_true_eq, Bool.not_eq_true', List.any_eq_false,
        not_and, List.mem_filter, List.mem_cons, not_or, and_imp]
      constructor
      · rintro ⟨hrest, hfirst⟩ f hf hid
        exact ⟨hfirst f hf hid, hrest f hf (hfirst f hf hid) hid⟩
      · intro hall
        exact ⟨fun f hf _ hid => (hall f hf hid).2, fun f hf hid => (hall f hf hid).1⟩
    · exact congrArg (fun t : RelayStore => { t with
        mailboxes := s.mailboxes, invites := s.invites, tokens := s.tokens, envelopes := s.envelopes
        prekeyPools := s.prekeyPools, prekeys := s.prekeys, keyrings := s.keyrings, files := s.files
        fileTokens := s.fileTokens, uploads := s.uploads }) h.others

theorem isSome_accessKey_deleteMailbox {mb mb' : Bytes} (hne : mb' ≠ mb) :
    ((s.deleteMailbox mb).accessKey mb').isSome = (s.accessKey mb').isSome := by
  rw [Bool.eq_iff_iff, accessKey_isSome, accessKey_isSome]
  constructor
  · rintro ⟨r, hr, hid⟩
    exact ⟨r, List.mem_of_mem_filter hr, hid⟩
  · rintro ⟨r, hr, rfl⟩
    exact ⟨r, List.mem_filter.2 ⟨hr, by simpa using hne⟩, rfl⟩

theorem foldl_removeNext {gone : List Bytes} (hgone : gone.Nodup) (n : ℕ) (s : RelayStore) :
    gone.foldl removeNext (n, s) =
      (n + (gone.filter fun mb => (s.accessKey mb).isSome).length, gone.foldl deleteMailbox s) := by
  induction gone generalizing n s with
  | nil => rfl
  | cons mb gone ih =>
    obtain ⟨hnew, hgone⟩ := List.nodup_cons.1 hgone
    have hsame : (gone.filter fun mb' => ((s.deleteMailbox mb).accessKey mb').isSome) =
        gone.filter fun mb' => (s.accessKey mb').isSome := by
      refine List.filter_congr fun mb' hmb' => isSome_accessKey_deleteMailbox ?_
      rintro rfl
      exact hnew hmb'
    rw [List.foldl_cons, List.foldl_cons, removeNext, ih hgone, hsame, List.filter_cons]
    refine Prod.ext ?_ rfl
    split_ifs with hthere
    · rw [List.length_cons]
      omega
    · rfl

/-! ## Everyone who was invited -/

def Invited (s : RelayStore) (inviter mb : Bytes) : Prop :=
  ∃ r ∈ s.mailboxes, r.id = mb ∧ r.invitedBy = some inviter

/-- The operator is no inviter. -/
theorem edge_members_iff {inviter mb : Bytes} (hne : inviter ≠ []) :
    Worklist.Edge (s.members.map fun m => (m.invitedBy, m.id)) inviter mb ↔ s.Invited inviter mb := by
  simp only [Worklist.Edge, members, List.map_map, List.mem_map, List.mem_mergeSort, Function.comp_apply,
    Prod.mk.injEq, Invited]
  refine exists_congr fun r => and_congr_right fun _ => ?_
  constructor
  · rintro ⟨hby, hid⟩
    refine ⟨hid, ?_⟩
    cases hinviter : r.invitedBy with
    | none =>
      rw [hinviter] at hby
      exact absurd hby.symm hne
    | some by' =>
      rw [hinviter] at hby
      exact congrArg some hby
  · rintro ⟨hid, hby⟩
    exact ⟨by rw [hby]; rfl, hid⟩

theorem reaches_iff {id mb : Bytes} (hid : id ≠ []) (hids : ∀ r ∈ s.mailboxes, r.id ≠ []) :
    Relation.ReflTransGen (Worklist.Edge (s.members.map fun m => (m.invitedBy, m.id))) id mb ↔
      Relation.ReflTransGen s.Invited id mb := by
  have hne : ∀ {mb'}, Relation.ReflTransGen s.Invited id mb' → mb' ≠ [] := by
    intro mb' h
    cases h with
    | refl => exact hid
    | tail _ hlast =>
      obtain ⟨r, hr, rfl, -⟩ := hlast
      exact hids r hr
  constructor
  · intro h
    induction h with
    | refl => exact .refl
    | tail _ hlast ih => exact ih.tail ((edge_members_iff (hne ih)).1 hlast)
  · intro h
    induction h with
    | refl => exact .refl
    | tail hfirst hlast ih => exact ih.tail ((edge_members_iff (hne hfirst)).2 hlast)

/-- A mailbox goes with everyone it invited and whom they invited in turn, once each, with everything that
is theirs and nothing else. No mailbox has the empty ID, which stands for the operator. -/
theorem mailbox_goes_with_its_invitees (s : RelayStore) {id : Bytes} (hid : id ≠ [])
    (hids : ∀ r ∈ s.mailboxes, r.id ≠ []) :
    ∃ gone : List Bytes, gone.Nodup ∧ (∀ mb, mb ∈ gone ↔ Relation.ReflTransGen s.Invited id mb) ∧
      Removed gone s (s.removeMailbox id true).2 ∧
      (s.removeMailbox id true).1 = (gone.filter fun mb => (s.accessKey mb).isSome).length := by
  have hnodup : (s.doomed id true).Nodup := Worklist.nodup_close _ _ _ (List.nodup_singleton id)
  have hrun : s.removeMailbox id true = _ := foldl_removeNext hnodup 0 s
  refine ⟨s.doomed id true, hnodup, fun mb => ?_, ?_, ?_⟩
  · exact Worklist.mem_close_iff.trans (reaches_iff hid hids)
  · rw [hrun]
    exact removed_foldl _ s
  · rw [hrun, Nat.zero_add]

/-- Two mailboxes that invited each other, one of the operator's, and one whose inviter is gone. -/
def sampleCircle : RelayStore where
  mailboxes := [⟨[1], [], 0, some [2]⟩, ⟨[2], [], 1, some [1]⟩, ⟨[3], [], 2, none⟩, ⟨[4], [], 3, some [9]⟩]

/-- The two go, and the other two stay. -/
theorem mailbox_goes_with_its_invitees_sample :
    ∃ gone : List Bytes, [1] ∈ gone ∧ [2] ∈ gone ∧ [3] ∉ gone ∧
      Removed gone sampleCircle (sampleCircle.removeMailbox [1] true).2 := by
  obtain ⟨gone, -, hgone, hremoved, -⟩ :=
    @mailbox_goes_with_its_invitees sampleCircle [1] (by decide) (by decide)
  have hsecond : sampleCircle.Invited [1] [2] := ⟨⟨[2], [], 1, some [1]⟩, by decide, rfl, rfl⟩
  refine ⟨gone, (hgone _).2 .refl, (hgone _).2 (.single hsecond), fun hthird => ?_, hremoved⟩
  cases (hgone _).1 hthird with
  | tail _ hlast =>
    obtain ⟨r, hr, hid, hby⟩ := hlast
    have hnone : ∀ r ∈ sampleCircle.mailboxes, r.id = [3] → r.invitedBy = none := by decide
    rw [hnone r hr hid] at hby
    exact nomatch hby

end RelayStore

end PqSuite.Relay
