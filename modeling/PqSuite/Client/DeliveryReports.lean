import Mathlib.Data.List.Perm.Basic
import PqSuite.Client.Outbox

/-!
# How far messages have come (`history_store.cpp`)

Reports on a message come from its readers and from the relay, in any order and more than once. The status
of a member is the highest that was reported for them, and the message's the lowest of its members', though
the source only ever raises the one and compares it with the other (`delivery_follows_reports`).
-/

namespace PqSuite.HistoryStore

/-- One call of `raise_delivery`. -/
structure Report where
  conversationId : Bytes
  messageId : Bytes
  memberFp : Bytes
  status : ℕ

def report (h : HistoryStore) (r : Report) : HistoryStore :=
  h.raiseDelivery r.conversationId r.messageId r.memberFp r.status

def reports (h : HistoryStore) (rs : List Report) : HistoryStore := rs.foldl report h

def highest (rs : List Report) (conversationId messageId memberFp : Bytes) : ℕ :=
  ((rs.filter fun r => r.conversationId = conversationId ∧ r.messageId = messageId ∧
    r.memberFp = memberFp).map (·.status)).foldr max 0

def lowest (statuses : List ℕ) : ℕ := statuses.min?.getD 0

variable {h : HistoryStore} {c m fp c' m' fp' : Bytes} {s : ℕ} {conv : Conversation} {msg : Message}

/-! ## Highest and lowest -/

theorem foldl_min_headD (l : List ℕ) : l.foldl min (l.headD 0) = lowest l := by
  cases l with
  | nil => rfl
  | cons a l =>
    rw [List.headD_cons, List.foldl_cons, min_self, lowest, List.min?_cons', Option.getD_some]

theorem lowest_mono {l : List Bytes} {f g : Bytes → ℕ} (hle : ∀ x ∈ l, f x ≤ g x) :
    lowest (l.map f) ≤ lowest (l.map g) := by
  cases hg : (l.map g).min? with
  | none =>
    obtain rfl := List.map_eq_nil_iff.1 (List.min?_eq_none_iff.1 hg)
    exact le_rfl
  | some b =>
    obtain ⟨x, hx, rfl⟩ := List.mem_map.1 (List.min?_mem hg)
    have hne : (l.map f).min? ≠ none := fun hnone => by
      rw [List.map_eq_nil_iff.1 (List.min?_eq_none_iff.1 hnone)] at hx
      exact nomatch hx
    obtain ⟨a, ha⟩ := Option.ne_none_iff_exists'.1 hne
    rw [lowest, lowest, hg, ha]
    exact ((List.le_min?_iff ha).1 le_rfl _ (List.mem_map_of_mem hx)).trans (hle x hx)

theorem highest_append (rs rs' : List Report) (c m fp : Bytes) :
    highest (rs ++ rs') c m fp = max (highest rs c m fp) (highest rs' c m fp) := by
  unfold highest
  rw [List.filter_append, List.map_append]
  induction (rs.filter _).map Report.status with
  | nil => rw [List.nil_append, List.foldr_nil, Nat.zero_max]
  | cons a l ih => rw [List.cons_append, List.foldr_cons, List.foldr_cons, ih, max_assoc]

theorem highest_singleton (r : Report) (c m fp : Bytes) : highest [r] c m fp =
    if r.conversationId = c ∧ r.messageId = m ∧ r.memberFp = fp then r.status else 0 := by
  by_cases hr : r.conversationId = c ∧ r.messageId = m ∧ r.memberFp = fp
  · simp [highest, hr]
  · simp [highest, hr]

theorem highest_perm {rs rs' : List Report} (hp : rs.Perm rs') (c m fp : Bytes) :
    highest rs c m fp = highest rs' c m fp :=
  ((hp.filter _).map _).foldr_eq 0

/-! ## One report -/

theorem deliveryStatus_setDelivery :
    (h.setDelivery c m fp s).deliveryStatus c m fp = max (h.deliveryStatus c m fp) s := by
  unfold deliveryStatus setDelivery
  dsimp only
  split_ifs with hany
  · rw [List.find?_map]
    obtain ⟨d, hd⟩ := Option.isSome_iff_exists.1 (List.find?_isSome.2 (List.any_eq_true.1 hany))
    have hsame := List.find?_some hd
    have hkeys : (fun d : Delivery => decide (d.conversationId = c ∧ d.messageId = m ∧ d.memberFp = fp)) ∘
        (fun d => if decide (d.conversationId = c ∧ d.messageId = m ∧ d.memberFp = fp) = true ∧
          d.status < s then { d with status := s } else d) =
        fun d => decide (d.conversationId = c ∧ d.messageId = m ∧ d.memberFp = fp) := by
      funext d
      dsimp only [Function.comp_apply]
      split_ifs <;> rfl
    rw [hkeys, hd]
    simp only [Option.map_some, Option.getD_some]
    split_ifs with hlt
    · exact (max_eq_right hlt.2.le).symm
    · exact (max_eq_left (Nat.le_of_not_lt fun hlt' => hlt ⟨hsame, hlt'⟩)).symm
  · have hnone := List.find?_eq_none.2 fun d hd hsame => hany (List.any_eq_true.2 ⟨d, hd, hsame⟩)
    rw [List.find?_append, hnone, Option.none_or]
    simp

theorem deliveryStatus_setDelivery_of_ne (hne : ¬(c = c' ∧ m = m' ∧ fp = fp')) :
    (h.setDelivery c m fp s).deliveryStatus c' m' fp' = h.deliveryStatus c' m' fp' := by
  unfold deliveryStatus setDelivery
  dsimp only
  split_ifs with hany
  · rw [List.find?_map, Option.map_map]
    have hkeys : (fun d : Delivery => decide (d.conversationId = c' ∧ d.messageId = m' ∧
        d.memberFp = fp')) ∘ (fun d => if decide (d.conversationId = c ∧ d.messageId = m ∧
          d.memberFp = fp) = true ∧ d.status < s then { d with status := s } else d) =
        fun d => decide (d.conversationId = c' ∧ d.messageId = m' ∧ d.memberFp = fp') := by
      funext d
      dsimp only [Function.comp_apply]
      split_ifs <;> rfl
    rw [hkeys]
    cases hd : h.deliveries.find? fun d => decide (d.conversationId = c' ∧ d.messageId = m' ∧
        d.memberFp = fp') with
    | none => rfl
    | some d =>
      have hd : d.conversationId = c' ∧ d.messageId = m' ∧ d.memberFp = fp' := by
        simpa using List.find?_some hd
      -- the row that was found is another one, so it is not raised
      have hother : ¬(d.conversationId = c ∧ d.messageId = m ∧ d.memberFp = fp) := fun hd' =>
        hne ⟨hd'.1.symm.trans hd.1, hd'.2.1.symm.trans hd.2.1, hd'.2.2.symm.trans hd.2.2⟩
      simp [hother]
  · rw [List.find?_append, List.find?_singleton, if_neg (by rwa [decide_eq_true_iff]), Option.or_none]

/-- What `raise_delivery` does when it does not return at once. -/
theorem raiseDelivery_of_member (hmsg : h.findMessage c m = some msg) (hout : msg.outgoing = true)
    (hconv : h.conversation c = some conv) (hfp : fp ∈ conv.members) :
    h.raiseDelivery c m fp s =
      { h.setDelivery c m fp s with
        messages := h.messages.map fun x =>
          if x.conversationId = c ∧ x.messageId = m ∧
              x.status < lowest (conv.members.map ((h.setDelivery c m fp s).deliveryStatus c m)) then
            { x with status := lowest (conv.members.map ((h.setDelivery c m fp s).deliveryStatus c m)) }
          else x } := by
  unfold raiseDelivery
  rw [hmsg, hconv]
  dsimp only
  rw [if_pos ⟨hout, hfp⟩, foldl_min_headD]
  rfl

/-- A report that is not about a message of ours, or not from a member, changes nothing. -/
theorem raiseDelivery_of_not (hnot : ∀ msg conv, h.findMessage c m = some msg → msg.outgoing = true →
    h.conversation c = some conv → fp ∉ conv.members) : h.raiseDelivery c m fp s = h := by
  unfold raiseDelivery
  split
  · next msg conv hmsg hconv => exact if_neg fun ⟨hout, hfp⟩ => hnot msg conv hmsg hout hconv hfp
  · rfl

/-! ## Any number of reports -/

/-- After these reports the members and the message have the statuses they should have. -/
structure Tracks (c m : Bytes) (conv : Conversation) (msg : Message) (rs : List Report)
    (h : HistoryStore) : Prop where
  chat : h.conversation c = some conv
  members : ∀ fp ∈ conv.members, h.deliveryStatus c m fp = highest rs c m fp
  message : h.findMessage c m = some { msg with status := lowest (conv.members.map (highest rs c m)) }

variable {rs : List Report} {r : Report}

theorem highest_concat_of_not (hr : ¬(r.conversationId = c ∧ r.messageId = m ∧ r.memberFp = fp)) :
    highest (rs ++ [r]) c m fp = highest rs c m fp := by
  rw [highest_append, highest_singleton, if_neg hr, Nat.max_zero]

theorem Tracks.concat_of_not (ht : Tracks c m conv msg rs h)
    (hr : ∀ fp ∈ conv.members, ¬(r.conversationId = c ∧ r.messageId = m ∧ r.memberFp = fp))
    {h' : HistoryStore} (hchat : h'.conversation c = h.conversation c)
    (hmembers : ∀ fp ∈ conv.members, h'.deliveryStatus c m fp = h.deliveryStatus c m fp)
    (hmessage : h'.findMessage c m = h.findMessage c m) : Tracks c m conv msg (rs ++ [r]) h' := by
  have hhigh : conv.members.map (highest (rs ++ [r]) c m) = conv.members.map (highest rs c m) :=
    List.map_congr_left fun fp hfp => highest_concat_of_not (hr fp hfp)
  refine ⟨hchat.trans ht.chat, fun fp hfp => ?_, ?_⟩
  · rw [hmembers fp hfp, ht.members fp hfp, highest_concat_of_not (hr fp hfp)]
  · rw [hmessage, ht.message, hhigh]

/-- Statuses are all that changes in a message. -/
theorem findMessage_map {f : Message → Message} {l : List Message}
    (hkeys : ∀ x, (f x).conversationId = x.conversationId ∧ (f x).messageId = x.messageId) :
    (l.map f).find? (fun x => x.conversationId = c ∧ x.messageId = m) =
      (l.find? fun x => x.conversationId = c ∧ x.messageId = m).map f := by
  rw [List.find?_map]
  congr 2
  funext x
  simp only [Function.comp_apply, hkeys]

theorem Tracks.report (ht : Tracks c m conv msg rs h) (hout : msg.outgoing = true) (r : Report) :
    Tracks c m conv msg (rs ++ [r]) (h.report r) := by
  by_cases hacts : ∃ msg' conv', h.findMessage r.conversationId r.messageId = some msg' ∧
      msg'.outgoing = true ∧ h.conversation r.conversationId = some conv' ∧ r.memberFp ∈ conv'.members
  · obtain ⟨msg', conv', hmsg', hout', hconv', hfp'⟩ := hacts
    have hreport := raiseDelivery_of_member (s := r.status) hmsg' hout' hconv' hfp'
    rw [HistoryStore.report, hreport]
    by_cases hkey : r.conversationId = c ∧ r.messageId = m
    · obtain ⟨rfl, rfl⟩ := hkey
      obtain rfl : conv' = conv := Option.some.inj (hconv'.symm.trans ht.chat)
      have hstatus : ∀ fp ∈ conv'.members,
          (h.setDelivery r.conversationId r.messageId r.memberFp r.status).deliveryStatus
            r.conversationId r.messageId fp =
          highest (rs ++ [r]) r.conversationId r.messageId fp := by
        intro fp hfp
        by_cases hsame : r.memberFp = fp
        · subst hsame
          rw [deliveryStatus_setDelivery, ht.members _ hfp, highest_append, highest_singleton,
            if_pos ⟨rfl, rfl, rfl⟩]
        · rw [deliveryStatus_setDelivery_of_ne fun h => hsame h.2.2, ht.members fp hfp,
            highest_concat_of_not fun h => hsame h.2.2]
      have hmap := List.map_congr_left hstatus
      have hle : lowest (conv'.members.map (highest rs r.conversationId r.messageId)) ≤
          lowest (conv'.members.map (highest (rs ++ [r]) r.conversationId r.messageId)) :=
        lowest_mono fun fp _ => by rw [highest_append]; exact le_max_left _ _
      refine ⟨ht.chat, hstatus, ?_⟩
      have hkeys := List.find?_some ht.message
      rw [decide_eq_true_iff] at hkeys
      unfold findMessage
      rw [findMessage_map (fun x => by split_ifs <;> exact ⟨rfl, rfl⟩), hmap]
      have hold := ht.message
      unfold findMessage at hold
      rw [hold, Option.map_some]
      -- the guard of the update only fails when the status is right already
      split_ifs with hlt
      · rfl
      · rw [hle.antisymm (Nat.le_of_not_lt fun hlt' => hlt ⟨hkeys.1, hkeys.2, hlt'⟩)]
    · have hr : ∀ fp, ¬(r.conversationId = c ∧ r.messageId = m ∧ r.memberFp = fp) :=
        fun fp h => hkey ⟨h.1, h.2.1⟩
      refine ht.concat_of_not (fun fp _ => hr fp) rfl
        (fun fp _ => deliveryStatus_setDelivery_of_ne (hr fp)) ?_
      unfold findMessage
      rw [findMessage_map (fun x => by split_ifs <;> exact ⟨rfl, rfl⟩)]
      cases hfind : h.messages.find? fun x => decide (x.conversationId = c ∧ x.messageId = m) with
      | none => rfl
      | some x =>
        have hx : x.conversationId = c ∧ x.messageId = m := by simpa using List.find?_some hfind
        rw [Option.map_some, if_neg fun h => hkey ⟨h.1.symm.trans hx.1, h.2.1.symm.trans hx.2⟩]
  · have hsame : h.report r = h := raiseDelivery_of_not fun msg' conv' hmsg hout hconv hfp =>
      hacts ⟨msg', conv', hmsg, hout, hconv, hfp⟩
    rw [hsame]
    refine ht.concat_of_not (fun fp hfp hr => hacts ?_) rfl (fun _ _ => rfl) rfl
    obtain ⟨rfl, rfl, rfl⟩ := hr
    exact ⟨_, conv, ht.message, hout, ht.chat, hfp⟩

theorem Tracks.reports (ht : Tracks c m conv msg rs h) (hout : msg.outgoing = true) (rs' : List Report) :
    Tracks c m conv msg (rs ++ rs') (h.reports rs') := by
  induction rs' generalizing rs h with
  | nil => rwa [List.append_nil]
  | cons r rs' ih =>
    rw [List.append_cons]
    exact ih (ht.report hout r)

/-- A message of ours that waits in the outbox. Nothing was reported on it: `raise_delivery` makes a row
only for a message that is stored. -/
structure Waits (h : HistoryStore) (c m : Bytes) (conv : Conversation) (msg : Message) : Prop where
  chat : h.conversation c = some conv
  message : h.findMessage c m = some msg
  outgoing : msg.outgoing = true
  queued : msg.status = 0
  unreported : ∀ d ∈ h.deliveries, ¬(d.conversationId = c ∧ d.messageId = m)

theorem lowest_zero (l : List Bytes) : lowest (l.map fun _ => 0) = 0 := by
  cases h : (l.map fun _ => 0).min? with
  | none => rw [lowest, h, Option.getD_none]
  | some a =>
    obtain ⟨-, -, rfl⟩ := List.mem_map.1 (List.min?_mem h)
    rw [lowest, h, Option.getD_some]

theorem Waits.tracks (hw : h.Waits c m conv msg) : Tracks c m conv msg [] h := by
  refine ⟨hw.chat, fun fp _ => ?_, ?_⟩
  · rw [deliveryStatus, List.find?_eq_none.2 fun d hd hsame =>
      hw.unreported d hd ⟨(of_decide_eq_true hsame).1, (of_decide_eq_true hsame).2.1⟩]
    rfl
  · have hlow : lowest (conv.members.map (highest [] c m)) = msg.status :=
      (lowest_zero conv.members).trans hw.queued.symm
    rw [hlow]
    exact hw.message

/-- After any reports a member's status is the highest that was reported for them, and the message's the
lowest of its members', in whatever order they came. What is not from a member, or not about a message of
ours, changes nothing. -/
theorem delivery_follows_reports (hw : h.Waits c m conv msg) (rs : List Report) :
    (∀ fp ∈ conv.members, (h.reports rs).deliveryStatus c m fp = highest rs c m fp) ∧
    (h.reports rs).findMessage c m = some { msg with
      status := lowest (conv.members.map ((h.reports rs).deliveryStatus c m)) } ∧
    (∀ rs', (∀ fp ∈ conv.members, (h.reports rs).deliveryStatus c m fp ≤
        (h.reports (rs ++ rs')).deliveryStatus c m fp) ∧
      lowest (conv.members.map ((h.reports rs).deliveryStatus c m)) ≤
        lowest (conv.members.map ((h.reports (rs ++ rs')).deliveryStatus c m))) ∧
    (∀ rs', rs.Perm rs' → (∀ fp ∈ conv.members, (h.reports rs).deliveryStatus c m fp =
        (h.reports rs').deliveryStatus c m fp) ∧
      (h.reports rs).findMessage c m = (h.reports rs').findMessage c m) ∧
    ∀ (h' : HistoryStore) (r : Report), (∀ msg conv,
      h'.findMessage r.conversationId r.messageId = some msg → msg.outgoing = true →
      h'.conversation r.conversationId = some conv → r.memberFp ∉ conv.members) → h'.report r = h' := by
  have htracks : ∀ rs, Tracks c m conv msg rs (h.reports rs) := hw.tracks.reports hw.outgoing
  have hmap : ∀ rs, conv.members.map ((h.reports rs).deliveryStatus c m) =
      conv.members.map (highest rs c m) := fun rs => List.map_congr_left (htracks rs).members
  have hraised : ∀ rs', ∀ fp ∈ conv.members, (h.reports rs).deliveryStatus c m fp ≤
      (h.reports (rs ++ rs')).deliveryStatus c m fp := by
    intro rs' fp hfp
    rw [(htracks rs).members fp hfp, (htracks _).members fp hfp, highest_append]
    exact le_max_left _ _
  refine ⟨(htracks rs).members, ?_, fun rs' => ⟨hraised rs', lowest_mono (hraised rs')⟩,
    fun rs' hp => ⟨fun fp hfp => ?_, ?_⟩, fun h' r hnot => raiseDelivery_of_not hnot⟩
  · rw [hmap]
    exact (htracks rs).message
  · rw [(htracks rs).members fp hfp, (htracks rs').members fp hfp, highest_perm hp]
  · have hhigh : highest rs c m = highest rs' c m := funext fun fp => highest_perm hp c m fp
    rw [(htracks rs).message, (htracks rs').message, hhigh]

def reportedGroup : HistoryStore where
  conversations := [{ id := [7], contactFp := [], kind := .group, members := [[2], [3]] }]
  messages := [{ conversationId := [7], messageId := [1], outgoing := true, sentAt := 0, receivedAt := 0
                 status := 0, entryHash := Relay.byteSum [], record := [] }]

theorem two_members_reported :
    ((reportedGroup.reports [⟨[7], [1], [2], 3⟩, ⟨[7], [1], [3], 1⟩, ⟨[7], [1], [2], 2⟩]).findMessage
      [7] [1]).map (·.status) = some 1 := by
  have hw : reportedGroup.Waits [7] [1] _ _ := ⟨rfl, rfl, rfl, rfl, fun d hd => nomatch hd⟩
  rw [(delivery_follows_reports hw _).2.1]
  decide +kernel

end PqSuite.HistoryStore
