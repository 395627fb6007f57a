import PqSuite.Server.Operations

/-!
# Invites

An invite code is open from the call that issues it until it is used, cancelled, swept away or goes with
its issuer. The run of the store is kept with the calls it did, and what they say of a code is compared
with the table. A member's open invites and the mailboxes they vouch for stay within the two limits.
-/

namespace PqSuite.Relay

/-- The tables that say who is a member and who may become one. -/
def RelayStore.memberTables (s : RelayStore) : List InviteRow × List MailboxRow := (s.invites, s.mailboxes)

namespace StoreOp

/-- The expiry of the code, if the call issues it. -/
def issues (code : Digest) : StoreOp → Option Time
  | addInvite hash expiresAt => if hash = code then some expiresAt else none
  | addMemberInvite _ hash expiresAt => if hash = code then some expiresAt else none
  | _ => none

/-- The call uses the code up, or takes it back. -/
def spends (code : Digest) : StoreOp → Bool
  | registerMailbox inviteHash _ _ _ => inviteHash = code
  | cancelMemberInvite _ hash => hash = code
  | _ => false

/-- The calls that change who is a member and who may become one. -/
def concernsMembers : StoreOp → Bool
  | addInvite .. | addMemberInvite .. | cancelMemberInvite .. | registerMailbox .. | deleteMailbox ..
  | sweep => true
  | _ => false

variable {limits : RelayLimits} {now : Time} {s : RelayStore}

/-- The other calls leave invites and mailboxes alone. -/
theorem memberTables_run {op : StoreOp} (h : op.concernsMembers = false) :
    (op.run limits now s).2.memberTables = s.memberTables := by
  cases op with
  | addInvite | addMemberInvite | cancelMemberInvite | registerMailbox | deleteMailbox | sweep =>
    exact nomatch h
  | putPrekeys mb m hm =>
    obtain ⟨pools, -, hset⟩ := s.exists_setGeneration mb m.generation
    simp only [run, RelayStore.putPrekeys, hset]
    split_ifs <;> rfl
  | takePrekey mb t =>
    simp only [run, RelayStore.takePrekey, RelayStore.countTake]
    split_ifs <;> split <;> first | rfl | (split <;> rfl)
  | redeemFileToken fileId t =>
    simp only [run, RelayStore.redeemFileToken]
    split <;> (try split) <;> (try split_ifs) <;> rfl
  | joinArchive =>
    simp only [run, RelayStore.joinArchive]
    split <;> (try split_ifs) <;> rfl
  | appendEntry =>
    simp only [run, RelayStore.appendEntry]
    split <;> (try split_ifs) <;> rfl
  | redactEntries =>
    simp only [run, RelayStore.redactEntries]
    split_ifs <;> (try split) <;> rfl
  | addToken | deposit | beginFile | deleteFile | putKeyring | createArchive =>
    simp only [run, RelayStore.addToken, RelayStore.deposit, RelayStore.beginFile,
      RelayStore.deleteFile, RelayStore.putKeyring, RelayStore.createArchive]
    split_ifs <;> rfl
  | _ => rfl

end StoreOp

/-- The calls that were done, the last one first. -/
abbrev StoreHistory := List (StoreOp × Time)

namespace StoreHistory

/-- Until when a code is open, by the last call that issued or spent it. -/
def openUntil (code : Digest) : StoreHistory → Option Time
  | [] => none
  | (op, _) :: earlier =>
    match op.issues code with
    | some expiresAt => some expiresAt
    | none => if op.spends code then none else openUntil code earlier

/-- Everyone who registered had a code that was open then and had not expired. -/
def Honoured : StoreHistory → Prop
  | [] => True
  | (op, now) :: earlier =>
    (∀ code id key token, op = .registerMailbox code id key token →
      ∃ expiresAt, openUntil code earlier = some expiresAt ∧ now < expiresAt) ∧ Honoured earlier

end StoreHistory

namespace RelayStore

variable {invite : InviteRow}

/-- A member's unused invites that are live at a time. -/
def liveInvites (s : RelayStore) (mb : Bytes) (t : Time) : ℕ :=
  (s.invites.filter fun r => r.issuedBy = some mb ∧ t < r.expiresAt).length

def vouchedFor (s : RelayStore) (mb : Bytes) : ℕ := (s.mailboxes.filter (·.invitedBy = some mb)).length

/-- The two limits on a member's invites. -/
structure InvitesWithin (limits : RelayLimits) (clock : Time) (s : RelayStore) : Prop where
  outstanding : ∀ mb, s.liveInvites mb clock ≤ limits.memberInvitesOutstanding
  total : ∀ mb, s.liveInvites mb clock + s.vouchedFor mb ≤ limits.memberInvitesTotal

/-- The table has each code once, and a row for a code that is open only. -/
structure InvitesOpen (s : RelayStore) (history : StoreHistory) : Prop where
  codes : (s.invites.map (·.hash)).Nodup
  isOpen : ∀ r ∈ s.invites, history.openUntil r.hash = some r.expiresAt

variable {limits : RelayLimits} {now clock : Time} {s s' : RelayStore} {history : StoreHistory}

theorem liveInvites_anti {t : Time} (mb : Bytes) (h : clock ≤ t) :
    s.liveInvites mb t ≤ s.liveInvites mb clock := by
  refine List.Sublist.length_le ?_
  refine List.monotone_filter_right s.invites fun r hr => ?_
  simp only [decide_eq_true_eq] at hr ⊢
  exact ⟨hr.1, h.trans_lt hr.2⟩

theorem InvitesWithin.mono (h : s.InvitesWithin limits clock) (hnow : clock ≤ now) :
    s.InvitesWithin limits now where
  outstanding mb := (liveInvites_anti mb hnow).trans (h.outstanding mb)
  total mb := (Nat.add_le_add_right (liveInvites_anti mb hnow) _).trans (h.total mb)

theorem InvitesWithin.sublist (h : s.InvitesWithin limits now) (hinvites : s'.invites.Sublist s.invites)
    (hmailboxes : s'.mailboxes.Sublist s.mailboxes) : s'.InvitesWithin limits now where
  outstanding mb := ((hinvites.filter _).length_le).trans (h.outstanding mb)
  total mb := (Nat.add_le_add (hinvites.filter _).length_le (hmailboxes.filter _).length_le).trans
    (h.total mb)

/-- A live invite that is used no longer counts. -/
theorem liveInvites_used {mb : Bytes} (hinvite : invite ∈ s.invites) (hlive : now < invite.expiresAt)
    (hmb : invite.issuedBy = some mb) :
    liveInvites { s with invites := s.invites.filter (·.hash ≠ invite.hash) } mb now <
      s.liveInvites mb now := by
  rw [liveInvites, List.filter_comm, liveInvites, List.length_filter_lt_length_iff_exists]
  exact ⟨invite, List.mem_filter.2 ⟨hinvite, decide_eq_true ⟨hmb, hlive⟩⟩, by simp⟩

/-- Who uses an invite moves from one count to the other. -/
theorem InvitesWithin.registered (h : s.InvitesWithin limits now) {m : MailboxRow}
    {tokens : List TokenRow} (hinvite : invite ∈ s.invites) (hlive : now < invite.expiresAt)
    (hm : m.invitedBy = if invite.issuedBy = some [] then none else invite.issuedBy) :
    InvitesWithin limits now { s with
      mailboxes := s.mailboxes ++ [m], tokens := tokens,
      invites := s.invites.filter (·.hash ≠ invite.hash) } where
  outstanding mb := ((List.filter_sublist.filter _).length_le).trans (h.outstanding mb)
  total mb := by
    refine le_trans ?_ (h.total mb)
    show liveInvites { s with invites := s.invites.filter (·.hash ≠ invite.hash) } mb now +
      ((s.mailboxes ++ [m]).filter _).length ≤ _
    rw [List.filter_append, List.length_append]
    by_cases hmb : m.invitedBy = some mb
    · have hissued : invite.issuedBy = some mb := by
        rw [hm] at hmb
        split_ifs at hmb
        exact hmb
      have hless := liveInvites_used hinvite hlive hissued
      simp only [hmb, decide_true, List.filter_cons_of_pos, List.filter_nil, List.length_singleton]
      show _ + (s.vouchedFor mb + 1) ≤ _
      omega
    · have hless : liveInvites { s with invites := s.invites.filter (·.hash ≠ invite.hash) } mb now ≤
          s.liveInvites mb now := (List.filter_sublist.filter _).length_le
      simp only [hmb, decide_false, Bool.false_eq_true, not_false_eq_true, List.filter_cons_of_neg,
        List.filter_nil, List.length_nil]
      exact Nat.add_le_add_right hless _

theorem InvitesWithin.issued (h : s.InvitesWithin limits now) {hash : Digest} {expiresAt : Time}
    {issuer : Bytes} (houtstanding : s.liveInvites issuer now < limits.memberInvitesOutstanding)
    (htotal : s.liveInvites issuer now + s.vouchedFor issuer < limits.memberInvitesTotal) :
    InvitesWithin limits now { s with invites := s.invites ++ [⟨hash, expiresAt, some issuer⟩] } := by
  have hlive : ∀ mb, liveInvites { s with invites := s.invites ++ [⟨hash, expiresAt, some issuer⟩] } mb now ≤
      s.liveInvites mb now + if mb = issuer then 1 else 0 := by
    intro mb
    rw [liveInvites, List.filter_append, List.length_append]
    refine Nat.add_le_add_left ?_ _
    by_cases hmb : mb = issuer
    · rw [if_pos hmb]
      exact List.length_filter_le _ _
    · simp [Ne.symm hmb]
  refine ⟨fun mb => ?_, fun mb => ?_⟩
  · have := hlive mb
    have := h.outstanding mb
    split_ifs at * with hmb
    · subst hmb
      omega
    · omega
  · have := hlive mb
    have := h.total mb
    show _ + s.vouchedFor mb ≤ _
    split_ifs at * with hmb
    · subst hmb
      omega
    · omega

theorem InvitesWithin.effect (h : s.InvitesWithin limits now) (he : Effect limits now s s') :
    s'.InvitesWithin limits now := by
  cases he with
  | operatorInvite hnew =>
    have hlive : ∀ r : InviteRow, r.issuedBy = none → ∀ mb,
        liveInvites { s with invites := s.invites ++ [r] } mb now = s.liveInvites mb now := by
      intro r hr mb
      simp [liveInvites, hr]
    exact ⟨fun mb => (hlive _ rfl mb).trans_le (h.outstanding mb), fun mb => by
      rw [hlive _ rfl mb]
      exact h.total mb⟩
  | memberInvite hknown hnew houtstanding htotal => exact h.issued houtstanding htotal
  | registered hinvite hlive hroom hnew =>
    exact h.registered (Rows.lookup_eq_some hinvite).1 hlive rfl
  | cancelled | swept => exact h.sublist List.filter_sublist (.refl _)
  | removed => exact h.sublist List.filter_sublist List.filter_sublist
  | _ => exact h.sublist (.refl _) (.refl _)

/-! ## Codes -/

theorem InvitesOpen.lost (h : s.InvitesOpen history) {op : StoreOp}
    (hsub : s'.invites.Sublist s.invites)
    (hop : ∀ r ∈ s'.invites, op.issues r.hash = none ∧ op.spends r.hash = false) :
    s'.InvitesOpen ((op, now) :: history) where
  codes := h.codes.sublist (hsub.map _)
  isOpen r hr := by
    rw [StoreHistory.openUntil, (hop r hr).1, (hop r hr).2]
    exact h.isOpen r (hsub.subset hr)

theorem InvitesOpen.issued (h : s.InvitesOpen history) {op : StoreOp}
    (hnew : ∀ r ∈ s.invites, r.hash ≠ invite.hash) (hspends : ∀ code, op.spends code = false)
    (hop : ∀ code, op.issues code = if invite.hash = code then some invite.expiresAt else none) :
    InvitesOpen { s with invites := s.invites ++ [invite] } ((op, now) :: history) where
  codes := Rows.nodup_concat h.codes hnew
  isOpen r hr := by
    rw [StoreHistory.openUntil, hop]
    rcases List.mem_append.1 hr with hold | hinvite
    · rw [if_neg (Ne.symm (hnew r hold)), hspends]
      exact h.isOpen r hold
    · rw [List.mem_singleton.1 hinvite, if_pos rfl]

theorem lookup_isOpen (h : s.InvitesOpen history) {code : Digest}
    (hinvite : Rows.lookup InviteRow.hash code s.invites = some invite) :
    history.openUntil code = some invite.expiresAt := by
  obtain ⟨hmem, rfl⟩ := Rows.lookup_eq_some hinvite
  exact h.isOpen invite hmem

/-- The row that a cancelled code had is the only one with that code. -/
theorem InvitesOpen.hash_ne_of_cancelled (h : s.InvitesOpen history) {issuer : Bytes} {code : Digest}
    (hdone : (s.cancelMemberInvite issuer code).1 = true) :
    ∀ r ∈ (s.cancelMemberInvite issuer code).2.invites, r.hash ≠ code := by
  rintro r hr rfl
  obtain ⟨hmem, hkept⟩ := List.mem_filter.1 hr
  obtain ⟨c, hc, hcode⟩ := List.any_eq_true.1 hdone
  have hcode := of_decide_eq_true hcode
  have hsame : c = r := List.inj_on_of_nodup_map h.codes hc hmem hcode.1
  exact of_decide_eq_true hkept ⟨rfl, hsame ▸ hcode.2⟩

end RelayStore

theorem StoreOp.issues_spends_of_not_concernsMembers {op : StoreOp} (h : op.concernsMembers = false)
    (code : Digest) : op.issues code = none ∧ op.spends code = false := by
  cases op <;> first | exact ⟨rfl, rfl⟩ | exact nomatch h

namespace RelayStore

variable {limits : RelayLimits} {now : Time} {s : RelayStore} {history : StoreHistory}

/-- What the rows say of the codes stays true when a call is done and written down. -/
theorem InvitesOpen.done (h : s.InvitesOpen history) {op : StoreOp}
    (hdone : (op.run limits now s).1 = true) :
    (op.run limits now s).2.InvitesOpen ((op, now) :: history) := by
  cases hop : op.concernsMembers with
  | false =>
    have hinvites : (op.run limits now s).2.invites = s.invites :=
      congrArg Prod.fst (StoreOp.memberTables_run hop)
    exact h.lost (hinvites ▸ .refl _) fun r _ => StoreOp.issues_spends_of_not_concernsMembers hop r.hash
  | true =>
    cases op with
    | addInvite hash expiresAt =>
      have hnew : ¬(s.invites.any (·.hash = hash)) = true := by simpa [StoreOp.run] using hdone
      show (s.addInvite hash expiresAt).InvitesOpen _
      rw [addInvite, if_neg hnew]
      exact h.issued (by simpa using hnew) (fun _ => rfl) fun _ => rfl
    | addMemberInvite issuer hash expiresAt =>
      obtain ⟨-, hnew, -, -, hstore⟩ := (addMemberInvite_spec rfl).done (of_decide_eq_true hdone)
      have hrun : (StoreOp.run limits now s (.addMemberInvite issuer hash expiresAt)).2 =
          { s with invites := s.invites ++ [⟨hash, expiresAt, some issuer⟩] } := hstore
      rw [hrun]
      exact h.issued hnew (fun _ => rfl) fun _ => rfl
    | cancelMemberInvite issuer hash =>
      refine h.lost List.filter_sublist fun r hr => ⟨rfl, decide_eq_false ?_⟩
      exact Ne.symm (h.hash_ne_of_cancelled hdone r hr)
    | registerMailbox code id key token =>
      obtain ⟨invite, -, -, -, -, hstore⟩ := (registerMailbox_spec rfl).done (of_decide_eq_true hdone)
      have hinvites : (StoreOp.run limits now s (.registerMailbox code id key token)).2.invites =
          s.invites.filter (·.hash ≠ code) := congrArg RelayStore.invites hstore
      refine h.lost (hinvites ▸ List.filter_sublist) fun r hr => ⟨rfl, decide_eq_false (Ne.symm ?_)⟩
      rw [hinvites] at hr
      exact of_decide_eq_true (List.mem_filter.1 hr).2
    | deleteMailbox mb => exact h.lost List.filter_sublist fun _ _ => ⟨rfl, rfl⟩
    | sweep => exact h.lost List.filter_sublist fun _ _ => ⟨rfl, rfl⟩
    | _ => cases hop

end RelayStore

/-! ## Runs -/

structure MemberService where
  store : RelayStore := {}
  clock : Time
  history : StoreHistory := []

namespace MemberService

def Init (w : MemberService) : Prop := w.store = {} ∧ w.history = []

def next (limits : RelayLimits) (w : MemberService) (e : StoreOp × Time) : MemberService :=
  let r := e.1.run limits e.2 w.store
  ⟨r.2, e.2, if r.1 then e :: w.history else w.history⟩

/-- A call at a time that is not before the last one. -/
def Step (limits : RelayLimits) (w : MemberService) (e : StoreOp × Time) (w' : MemberService) : Prop :=
  w.clock ≤ e.2 ∧ w' = w.next limits e

structure Inv (limits : RelayLimits) (w : MemberService) : Prop where
  keys : w.store.ForeignKeys
  isOpen : w.store.InvitesOpen w.history
  within : w.store.InvitesWithin limits w.clock
  honoured : w.history.Honoured

variable {limits : RelayLimits} {w : MemberService}

theorem Inv.init (h : w.Init) : w.Inv limits := by
  obtain ⟨store, clock, history⟩ := w
  obtain ⟨rfl, rfl⟩ := h
  exact ⟨.empty, ⟨List.nodup_nil, fun r hr => absurd hr List.not_mem_nil⟩,
    ⟨fun _ => Nat.zero_le _, fun _ => Nat.zero_le _⟩, trivial⟩

theorem Inv.step (h : w.Inv limits) (e : StoreOp × Time) (hnow : w.clock ≤ e.2) :
    (w.next limits e).Inv limits := by
  obtain ⟨op, now⟩ := e
  have heffect := op.effect_run limits now w.store
  have hwithin : (op.run limits now w.store).2.InvitesWithin limits now := (h.within.mono hnow).effect heffect
  cases hdone : (op.run limits now w.store).1 with
  | true =>
    have hnext : (w.next limits (op, now)).history = (op, now) :: w.history := if_pos hdone
    refine ⟨h.keys.effect heffect, hnext ▸ h.isOpen.done hdone, hwithin, ?_⟩
    rw [hnext]
    refine ⟨?_, h.honoured⟩
    rintro code id key token rfl
    obtain ⟨invite, hinvite, hlive, -⟩ := (registerMailbox_spec rfl).done (of_decide_eq_true hdone)
    exact ⟨_, RelayStore.lookup_isOpen h.isOpen hinvite, hlive⟩
  | false =>
    have hnext : (w.next limits (op, now)).history = w.history := if_neg (by simp [hdone])
    have hinvites : (op.run limits now w.store).2.invites = w.store.invites := by
      rw [StoreOp.run_refused h.keys hdone]
      cases op with
      | takePrekey mb t =>
        dsimp only [StoreOp.afterRefusal, RelayStore.countTake]
        split_ifs <;> rfl
      | _ => rfl
    refine ⟨h.keys.effect heffect, ?_, hwithin, hnext ▸ h.honoured⟩
    rw [hnext]
    exact ⟨hinvites ▸ h.isOpen.codes, fun r hr => h.isOpen.isOpen r (hinvites ▸ hr)⟩

/-- Everyone who registered used a code that was open then. A member's live invites stay within their limit,
and together with the mailboxes the member vouches for within theirs. Only its issuer cancels an invite,
and a registration that is refused changes nothing. -/
theorem invites_are_honoured (limits : RelayLimits) {w : MemberService}
    (h : Reach.Reachable Init (Step limits) w) :
    w.history.Honoured ∧
    (∀ mb t, w.clock ≤ t → w.store.liveInvites mb t ≤ limits.memberInvitesOutstanding ∧
      w.store.liveInvites mb t + w.store.vouchedFor mb ≤ limits.memberInvitesTotal) ∧
    (∀ issuer code now, ((StoreOp.cancelMemberInvite issuer code).run limits now w.store).1 = true →
      ∃ r ∈ w.store.invites, r.hash = code ∧ r.issuedBy = some issuer) ∧
    (∀ issuer code now, ∀ r ∈ w.store.invites, r.issuedBy ≠ some issuer →
      r ∈ ((StoreOp.cancelMemberInvite issuer code).run limits now w.store).2.invites) ∧
    ∀ code id key token now,
      ((StoreOp.registerMailbox code id key token).run limits now w.store).1 = false →
      ((StoreOp.registerMailbox code id key token).run limits now w.store).2 = w.store := by
  have hinv : w.Inv limits := h.invariant (P := fun w => w.Inv limits) (fun w hinit => .init hinit) (by
    rintro w e w' hinv ⟨hnow, rfl⟩
    exact hinv.step e hnow)
  refine ⟨hinv.honoured, fun mb t ht => ?_, fun issuer code now hdone => ?_,
    fun issuer code now r hr hissuer => ?_, fun code id key token now hrefused => ?_⟩
  · have hlater := hinv.within.mono ht
    exact ⟨hlater.outstanding mb, hlater.total mb⟩
  · obtain ⟨r, hr, hcode⟩ := List.any_eq_true.1 hdone
    exact ⟨r, hr, of_decide_eq_true hcode⟩
  · exact List.mem_filter.2 ⟨hr, decide_eq_true fun hboth => hissuer hboth.2⟩
  · exact (registerMailbox_spec rfl).kept (of_decide_eq_false hrefused)

/-- A member may have one unused invite, and vouch for two people in all. -/
def twoFriends : RelayLimits :=
  { maxMailboxes := 10, memberInvitesOutstanding := 1, memberInvitesTotal := 2 }

def sampleCode (n : UInt8) : Digest := ⟨List.replicate 32 n, rfl⟩

/-- Someone registers with the operator's code and invites a friend, who registers; a second one tries the
same code. -/
def sampleCalls : List (StoreOp × Time) :=
  [(.addInvite (sampleCode 1) 100, 0), (.registerMailbox (sampleCode 1) [1] [10] (sampleCode 11), 5),
    (.addMemberInvite [1] (sampleCode 2) 100, 6),
    (.registerMailbox (sampleCode 2) [2] [20] (sampleCode 12), 7),
    (.registerMailbox (sampleCode 2) [3] [30] (sampleCode 13), 8)]

def sampleMembers : MemberService := sampleCalls.foldl (next twoFriends) { clock := 0 }

theorem sampleMembers_reachable : Reach.Reachable Init (Step twoFriends) sampleMembers :=
  (((((Reach.Reachable.start ⟨rfl, rfl⟩ : Reach.Reachable Init (Step twoFriends) { clock := 0 }).next
    ⟨by decide, rfl⟩).next ⟨by decide, rfl⟩).next ⟨by decide, rfl⟩).next ⟨by decide, rfl⟩).next
    ⟨by decide, rfl⟩

/-- The second one is refused and nothing changes; the friend counts against the total. -/
theorem invites_are_honoured_two_friends :
    sampleMembers.store.mailboxes.map (·.id) = [[1], [2]] ∧ sampleMembers.store.vouchedFor [1] = 1 ∧
    sampleMembers.store.liveInvites [1] 8 + sampleMembers.store.vouchedFor [1] ≤ 2 ∧
    ((StoreOp.registerMailbox (sampleCode 2) [3] [30] (sampleCode 13)).run twoFriends 9
      sampleMembers.store).2 = sampleMembers.store :=
  have h := invites_are_honoured twoFriends sampleMembers_reachable
  ⟨by decide +kernel, by decide +kernel, (h.2.1 [1] 8 (by decide +kernel)).2,
    h.2.2.2.2 (sampleCode 2) [3] [30] (sampleCode 13) 9 (by decide +kernel)⟩

end MemberService

end PqSuite.Relay
