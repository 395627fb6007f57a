import PqSuite.Lib.Cursor
import PqSuite.Server.ArchiveLog

/-!
# Delivering envelopes

A connection that collects is sent the envelopes of its mailbox behind a cursor, in batches, while other
sessions deposit, acknowledge and sweep. Sequence numbers are never given twice and rows appear in their
order, so what was sent and looked up since the last collect request has no gap (`Cursor.Covers`).
-/

namespace PqSuite.Relay

open Reach

variable {svc : Service} {now clock clock' : Time} {ss ss' : Session} {msg : WireMessage}
  {st st' : RelayStore} {rate : RateLimiter} {w w' : World} {i : ℕ} {deposits : List EnvelopeRow}
  {o : Outcome} {e : EnvelopeRow} {work : Pending} {mb : Bytes} {collect : Bool}

/-! ## What a step does to the envelopes -/

/-- Envelopes go, or one comes with the next number. -/
inductive MailStep (st st' : RelayStore) : Option EnvelopeRow → Prop
  | fewer (hrows : st'.envelopes.Sublist st.envelopes) (hseq : st'.envelopeSeq = st.envelopeSeq) :
      MailStep st st' none
  | comes {e : EnvelopeRow} (hnumber : e.seq = st.envelopeSeq + 1)
      (hrows : st'.envelopes = st.envelopes ++ [e]) (hseq : st'.envelopeSeq = st.envelopeSeq + 1) :
      MailStep st st' (some e)

theorem MailStep.refl (st : RelayStore) : MailStep st st none := .fewer (.refl _) rfl

theorem SameMail.mailStep (h : SameMail st st') : MailStep st st' none :=
  .fewer (by rw [h.envelopes]) h.envelopeSeq

theorem MailRequest.mailStep (h : MailRequest ss st o) : MailStep st o.store o.deposited := by
  cases h with
  | registered rate h =>
    obtain ⟨_, -, -, -, _, rfl⟩ := (registerMailbox_spec h).done rfl
    exact .fewer (.refl _) rfl
  | own rate up work hmb hcall hlight hquiet =>
    exact .fewer hcall.confined.sublist hcall.confined.envelopeSeq
  | _ => exact .refl st

theorem FileRequest.deposited_eq (h : FileRequest ss st o) : o.deposited = none := by
  cases h <;> rfl

theorem ArchiveRequest.deposited_eq (h : ArchiveRequest svc ss msg st o) : o.deposited = none := by
  cases h <;> rfl

theorem Request.mailStep (h : Request svc ss msg st o) : MailStep st o.store o.deposited := by
  cases h with
  | mail h => exact h.mailStep
  | file h =>
    rw [h.deposited_eq]
    exact h.filesOnly.mail.mailStep
  | archive h =>
    rw [h.deposited_eq]
    exact h.archivesOnly.mail.mailStep
  | _ => exact .refl st

theorem MailRest.mailStep (h : MailRest ss st o) : MailStep st o.store o.deposited := by
  cases h with
  | deposited rate h =>
    obtain ⟨-, -, rfl⟩ := (deposit_spec h).done rfl
    simp only [List.getLast?_append, List.getLast?_singleton, Option.some_or]
    exact .comes rfl rfl rfl
  | took rate h =>
    obtain ⟨_, _, -, rfl⟩ := takePrekey_spec h
    exact .fewer (.refl _) rfl
  | _ => exact .refl st

theorem Resumed.mailStep (h : Resumed svc now ss st rate work o) : MailStep st o.store o.deposited := by
  cases h with
  | mail h => exact h.mailStep
  | file h =>
    have hdep : o.deposited = none := by cases h <;> rfl
    rw [hdep]
    exact h.filesOnly.mail.mailStep
  | push collect batch =>
    obtain ⟨hst, -, -, hdep⟩ := resumePush_store now ss st rate collect batch
    rw [hst, hdep]
    exact .refl st
  | agreed => exact .refl st
  | deleteArchive => exact .fewer (.refl _) rfl
  | redactEntries h =>
    obtain ⟨-, _, _, -, rfl⟩ := (redactEntries_spec h).done rfl
    exact .fewer (.refl _) rfl

/-! ## A session's push round -/

/-- The envelopes a push round has looked up and not sent yet. -/
def Pending.batch : Pending → List EnvelopeRow
  | .push _ batch => batch
  | .remove _ _ next | .dropFile _ next => next.batch
  | _ => []

def Session.batch (ss : Session) : List EnvelopeRow := (ss.pending.map Pending.batch).getD []

/-- What was sent since the last collect request, and what comes next. -/
def Session.round (ss : Session) : List EnvelopeRow := ss.pushed ++ ss.batch

def Session.Waiting (ss : Session) (st : RelayStore) (clock : Time) (e : EnvelopeRow) : Prop :=
  e ∈ st.envelopes ∧ ss.mailbox = some e.mailboxId ∧ clock < e.expiresAt

/-- A session goes on after the last envelope it was sent, has left no gap, and was sent only envelopes
that were stored for its mailbox. -/
structure Session.Delivers (ss : Session) (st : RelayStore) (deposits : List EnvelopeRow)
    (clock : Time) : Prop where
  signedIn : ss.mailbox.isSome → ss.challengeUsed = true
  position : ss.lastSeq = Cursor.position EnvelopeRow.seq ss.pushed
  covers : Cursor.Covers EnvelopeRow.seq (ss.Waiting st clock) ss.round
  own : ∀ e ∈ ss.round, e ∈ deposits ∧ ss.mailbox = some e.mailboxId

theorem Session.Delivers.of_round_nil (hused : ss.mailbox.isSome → ss.challengeUsed = true)
    (hpushed : ss.pushed = []) (hbatch : ss.batch = []) (hseq : ss.lastSeq = 0) :
    ss.Delivers st deposits clock := by
  have hround : ss.round = [] := by rw [Session.round, hpushed, hbatch]; rfl
  refine ⟨hused, by rw [hpushed, hseq]; rfl, hround ▸ .nil, ?_⟩
  rw [hround]
  exact fun _ he => nomatch he

/-- What does not concern the round may change, and the round may be given up. -/
theorem Session.Delivers.congr (h : ss.Delivers st deposits clock)
    (hmailbox : ss'.mailbox = ss.mailbox) (hused : ss.challengeUsed = true → ss'.challengeUsed = true)
    (hseq : ss'.lastSeq = ss.lastSeq) (hpushed : ss'.pushed = ss.pushed)
    (hbatch : ss'.batch = ss.batch ∨ ss'.batch = []) : ss'.Delivers st deposits clock := by
  have hwaiting : ss'.Waiting st clock = ss.Waiting st clock := by
    funext e
    rw [Session.Waiting, Session.Waiting, hmailbox]
  have hcovers : Cursor.Covers EnvelopeRow.seq (ss.Waiting st clock) ss'.round ∧
      ∀ e ∈ ss'.round, e ∈ ss.round := by
    unfold Session.round
    rw [hpushed]
    rcases hbatch with hb | hb <;> rw [hb]
    · exact ⟨h.covers, fun _ he => he⟩
    · rw [List.append_nil]
      exact ⟨h.covers.of_append, fun _ he => List.mem_append_left _ he⟩
  refine ⟨fun hm => hused (h.signedIn (hmailbox ▸ hm)), ?_, hwaiting ▸ hcovers.1, fun e he => ?_⟩
  · rw [hseq, hpushed]
    exact h.position
  · rw [hmailbox]
    exact h.own e (hcovers.2 e he)

theorem Session.Delivers.later (h : ss.Delivers st deposits clock) (hclock : clock ≤ clock') :
    ss.Delivers st deposits clock' :=
  ⟨h.signedIn, h.position,
    h.covers.mono fun _ he => .inl ⟨he.1, he.2.1, lt_of_le_of_lt hclock he.2.2⟩, h.own⟩

theorem Session.Delivers.frame {dep : Option EnvelopeRow} (h : ss.Delivers st deposits clock)
    (hnumbers : ∀ e ∈ deposits, e.seq ≤ st.envelopeSeq) (hstep : MailStep st st' dep) :
    ss.Delivers st' (deposits ++ dep.toList) clock := by
  refine ⟨h.signedIn, h.position, h.covers.mono fun e he => ?_,
    fun e he => ⟨List.mem_append_left _ (h.own e he).1, (h.own e he).2⟩⟩
  obtain ⟨hmem, hmb, hlive⟩ := he
  have hold : e ∈ st.envelopes → ss.Waiting st clock e := fun hmem => ⟨hmem, hmb, hlive⟩
  cases hstep with
  | fewer hrows _ => exact .inl (hold (hrows.subset hmem))
  | comes hnumber hrows _ =>
    rw [hrows] at hmem
    rcases List.mem_append.1 hmem with hmem | hmem
    · exact .inl (hold hmem)
    · right
      intro b hb
      rw [List.mem_singleton.1 hmem, hnumber]
      exact Nat.lt_succ_of_le (hnumbers b (h.own b hb).1)

/-! ## Requests -/

theorem Pending.Light.batch_eq (h : work.Light) : work.batch = [] := by
  cases work <;> first | rfl | exact h.elim

theorem Session.batch_of_idle (h : ss.pending = none) : ss.batch = [] := by
  rw [Session.batch, h]
  rfl

theorem MailRequest.delivers (h : MailRequest ss st o) (hss : ss.Delivers st deposits clock)
    (ho : o.session = some ss') : ss'.Delivers st deposits clock := by
  cases h with
  | starts rate hlight =>
    obtain rfl := Option.some.inj ho
    exact hss.congr rfl id rfl rfl (.inr hlight.batch_eq)
  | own rate up work hmb hcall hlight hquiet =>
    obtain rfl := Option.some.inj ho
    refine hss.congr rfl id rfl rfl ?_
    rcases hlight with rfl | ⟨work, rfl, hlight⟩
    · exact .inl rfl
    · exact .inr hlight.batch_eq
  | closed | failed => exact nomatch ho
  | _ => exact Option.some.inj ho ▸ hss

theorem FileRequest.delivers (h : FileRequest ss st o) (hss : ss.Delivers st deposits clock)
    (ho : o.session = some ss') : ss'.Delivers st deposits clock := by
  cases h with
  | closed => exact nomatch ho
  | refused | redeemed => exact Option.some.inj ho ▸ hss
  | wrote => exact Option.some.inj ho ▸ hss.congr rfl id rfl rfl (.inl rfl)
  | _ => exact Option.some.inj ho ▸ hss.congr rfl id rfl rfl (.inr rfl)

theorem ArchiveRequest.delivers (h : ArchiveRequest svc ss msg st o) (hss : ss.Delivers st deposits clock)
    (ho : o.session = some ss') : ss'.Delivers st deposits clock := by
  cases h with
  | closed | failed => exact nomatch ho
  | starts rate hss' hwork hquiet =>
    obtain rfl := Option.some.inj ho
    exact hss.congr rfl id rfl rfl (.inr (by cases hwork <;> rfl))
  | _ => exact Option.some.inj ho ▸ hss

theorem Request.delivers (h : Request svc ss msg st o) (hp : ss.pending = none)
    (hss : ss.Delivers st deposits clock) (ho : o.session = some ss') :
    ss'.Delivers st deposits clock := by
  cases h with
  | mail h | file h | archive h => exact h.delivers hss ho
  | collects ht rate hmb =>
    obtain rfl := Option.some.inj ho
    exact .of_round_nil hss.signedIn rfl rfl rfl
  | signsIn rate ht hm hfresh hkey hverify =>
    -- nothing was pushed before the connection had a mailbox
    have hnone : ss.mailbox = none := by
      cases hmb : ss.mailbox with
      | none => rfl
      | some mb => exact absurd (hss.signedIn (by rw [hmb]; rfl)) (by simp [hfresh])
    have hround : ss.round = [] := List.eq_nil_iff_forall_not_mem.2 fun e he => by
      have := (hss.own e he).2
      rw [hnone] at this
      exact nomatch this
    obtain rfl := Option.some.inj ho
    have hpushed := (List.append_eq_nil_iff.1 hround).1
    exact .of_round_nil (fun _ => rfl) hpushed (Session.batch_of_idle hp)
      (hss.position.trans (by rw [hpushed]; rfl))
  | signsInToArchive =>
    obtain rfl := Option.some.inj ho
    exact hss.congr rfl (fun _ => rfl) rfl rfl (.inl rfl)

/-! ## Push rounds -/

/-- In a table that is in order, a look finds the next rows that wait. -/
theorem fetch_eq (hsorted : st.envelopes.Pairwise (·.seq < ·.seq)) {after limit : ℕ} :
    st.fetch mb after now limit = (st.envelopes.filter fun e =>
      e.mailboxId = mb ∧ after < e.seq ∧ now < e.expiresAt).take limit := by
  unfold RelayStore.fetch
  rw [List.mergeSort_of_pairwise]
  exact (hsorted.sublist List.filter_sublist).imp fun h => by simpa using Nat.le_of_lt h

theorem mem_next {after : ℕ} :
    e ∈ st.envelopes.filter (fun e => e.mailboxId = mb ∧ after < e.seq ∧ now < e.expiresAt) ↔
      e ∈ st.envelopes ∧ e.mailboxId = mb ∧ after < e.seq ∧ now < e.expiresAt := by
  simp [List.mem_filter]

/-- A look that finds envelopes leaves no gap. -/
theorem Session.Delivers.looks (h : ss.Delivers st deposits now) (hmb : ss.mailbox = some mb)
    (hp : ss.pending = none) (hsorted : st.envelopes.Pairwise (·.seq < ·.seq))
    (hstored : ∀ e ∈ st.envelopes, e ∈ deposits ∧ 0 < e.seq) (collect : Bool) :
    ({ ss with pending := some (.push collect (st.fetch mb ss.lastSeq now 32)) } : Session).Delivers
      st deposits now := by
  have hround : ss.round = ss.pushed := by
    rw [Session.round, Session.batch_of_idle hp, List.append_nil]
  have hcovers := hround ▸ h.covers
  have hown := hround ▸ h.own
  rw [fetch_eq hsorted]
  refine ⟨h.signedIn, h.position, ?_, ?_⟩
  · refine hcovers.append_batch (hsorted.sublist List.filter_sublist) ?_ ?_ ?_ 32
    · exact fun e he => (hstored e he.1).2
    · intro e he
      rw [← h.position]
      exact (mem_next.1 he).2.2.1
    · intro e he hlt
      rw [← h.position] at hlt
      exact mem_next.2 ⟨he.1, Option.some.inj (he.2.1.symm.trans hmb), hlt, he.2.2⟩
  · intro e he
    rcases List.mem_append.1 he with he | he
    · exact hown e he
    · obtain ⟨hmem, hid, -⟩ := mem_next.1 (List.mem_of_mem_take he)
      exact ⟨(hstored e hmem).1, hmb.trans (congrArg some hid.symm)⟩

theorem Session.Delivers.sends {rest : List EnvelopeRow} (h : ss.Delivers st deposits clock)
    (hp : ss.pending = some (.push collect (e :: rest))) :
    ({ ss with
        lastSeq := e.seq, pushed := ss.pushed ++ [e], pending := some (.push collect rest) } :
      Session).Delivers st deposits clock := by
  have hround : ss.round = (ss.pushed ++ [e]) ++ rest := by
    rw [Session.round, Session.batch, hp, List.append_assoc]
    rfl
  refine ⟨h.signedIn, ?_, ?_, ?_⟩
  · rw [Cursor.position_append_singleton]
  · have hcovers := h.covers
    rw [hround] at hcovers
    exact hcovers
  · have hown := h.own
    rw [hround] at hown
    exact hown

/-- When a look finds nothing, everything that waits was sent since the last collect request. -/
theorem Session.Delivers.complete (h : ss.Delivers st deposits now) (hmb : ss.mailbox = some mb)
    (hbatch : ss.batch = []) (hsorted : st.envelopes.Pairwise (·.seq < ·.seq))
    (hstored : ∀ e ∈ st.envelopes, e ∈ deposits ∧ 0 < e.seq) (hend : st.fetch mb ss.lastSeq now 32 = [])
    (he : ss.Waiting st now e) : e ∈ ss.pushed := by
  have hround : ss.round = ss.pushed := by rw [Session.round, hbatch, List.append_nil]
  refine (hround ▸ h.covers).mem_of_end (fun e he => (hstored e he.1).2) (fun e he hlt => ?_) he
  rw [fetch_eq hsorted, List.take_eq_nil_iff] at hend
  have hmem := mem_next.2 ⟨he.1, Option.some.inj (he.2.1.symm.trans hmb), h.position ▸ hlt, he.2.2⟩
  rcases hend with hend | hend
  · exact nomatch hend
  · rw [hend] at hmem
    exact nomatch hmem

theorem resumePush_delivers {batch : List EnvelopeRow} (h : ss.Delivers st deposits now)
    (hp : ss.pending = some (.push collect batch)) (hsorted : st.envelopes.Pairwise (·.seq < ·.seq))
    (hstored : ∀ e ∈ st.envelopes, e ∈ deposits ∧ 0 < e.seq)
    (ho : (resumePush now { ss with pending := none } st rate collect batch).session = some ss') :
    ss'.Delivers st deposits now := by
  have hidle : ({ ss with pending := none } : Session).Delivers st deposits now :=
    h.congr rfl id rfl rfl (.inr rfl)
  unfold resumePush at ho
  split at ho
  · exact Option.some.inj ho ▸ hidle
  · rename_i mb hmb
    simp only at ho
    split at ho
    · exact Option.some.inj ho ▸ hidle
    · exact Option.some.inj ho ▸ hidle.looks hmb rfl hsorted hstored collect
  · exact Option.some.inj ho ▸ h.sends hp

theorem MailRest.session_eq (h : MailRest ss st o) (ho : o.session = some ss') : ss' = ss := by
  cases h with
  | failed | gone => exact nomatch ho
  | _ => exact (Option.some.inj ho).symm

theorem FileRest.delivers (h : FileRest { ss with pending := none } st work o)
    (hp : ss.pending = some work) (hss : ss.Delivers st deposits clock) (ho : o.session = some ss') :
    ss'.Delivers st deposits clock := by
  have hbatch : ss.batch = work.batch := by rw [Session.batch, hp]; rfl
  cases h with
  | removed | dropped =>
    obtain rfl := Option.some.inj ho
    exact hss.congr rfl id rfl rfl (.inl hbatch.symm)
  | _ => exact Option.some.inj ho ▸ hss.congr rfl id rfl rfl (.inr rfl)

theorem resume_delivers (hss : ss.Delivers st deposits now) (hp : ss.pending = some work)
    (hsorted : st.envelopes.Pairwise (·.seq < ·.seq))
    (hstored : ∀ e ∈ st.envelopes, e ∈ deposits ∧ 0 < e.seq)
    (ho : (resume svc now ss st rate work).session = some ss') : ss'.Delivers st deposits now := by
  have hidle : ({ ss with pending := none } : Session).Delivers st deposits now :=
    hss.congr rfl id rfl rfl (.inr rfl)
  have h := resume_resumed svc now ss st rate work
  generalize resume svc now ss st rate work = o at h ho
  cases h with
  | mail h => exact h.session_eq ho ▸ hidle
  | file h => exact h.delivers hp hss ho
  | push collect batch => exact resumePush_delivers hss hp hsorted hstored ho
  | agreed m hwork =>
    obtain rfl := Option.some.inj ho
    cases hwork <;> exact hss.congr rfl id rfl rfl (.inr rfl)
  | deleteArchive | redactEntries => exact Option.some.inj ho ▸ hidle

/-! ## Every interleaving -/

/-- The time at which an event happens, if it looks at the clock. -/
def Event.time : Event → Option Time
  | .message _ now _ | .resume _ now | .sweep now | .sweepPrekeyTakes now | .sweepFiles now
  | .createInvite _ now => some now
  | _ => none

/-- Numbers are given once and in order, and every session delivers without a gap. -/
structure World.MailInv (w : World) (clock : Time) : Prop where
  sorted : w.store.envelopes.Pairwise (·.seq < ·.seq)
  stored : ∀ e ∈ w.store.envelopes, e ∈ w.deposits
  numbered : ∀ e ∈ w.deposits, 0 < e.seq ∧ e.seq ≤ w.store.envelopeSeq
  delivers : ∀ i ss, w.sessions i = some ss → ss.Delivers w.store w.deposits clock

/-- What a step does to the table, and what the sessions are after it. -/
theorem World.MailInv.step_of {dep : Option EnvelopeRow} (h : w.MailInv clock)
    (hstep : MailStep w.store w'.store dep)
    (hdep : w'.deposits = w.deposits ++ dep.toList)
    (hsessions : ∀ i ss, w'.sessions i = some ss → ss.Delivers w.store w.deposits clock') :
    w'.MailInv clock' := by
  have hnumbers : ∀ e ∈ w.deposits, e.seq ≤ w.store.envelopeSeq := fun e he => (h.numbered e he).2
  have hss : ∀ i ss, w'.sessions i = some ss → ss.Delivers w'.store w'.deposits clock' :=
    fun i ss hi => hdep ▸ (hsessions i ss hi).frame hnumbers hstep
  cases hstep with
  | fewer hrows hseq =>
    have hsame : w'.deposits = w.deposits := hdep.trans (List.append_nil _)
    refine ⟨h.sorted.sublist hrows, fun e he => ?_, fun e he => ?_, hss⟩
    · exact hsame ▸ h.stored e (hrows.subset he)
    · rw [hseq]
      exact h.numbered e (hsame ▸ he)
  | @comes e hnumber hrows hseq =>
    have hadd : w'.deposits = w.deposits ++ [e] := hdep
    refine ⟨?_, fun e' he => ?_, fun e' he => ?_, hss⟩
    · rw [hrows]
      refine List.pairwise_append.2 ⟨h.sorted, List.pairwise_singleton _ _, fun a ha b hb => ?_⟩
      rw [List.mem_singleton.1 hb, hnumber]
      exact Nat.lt_succ_of_le (hnumbers a (h.stored a ha))
    · rw [hrows] at he
      rw [hadd]
      exact (List.mem_append.1 he).elim (fun he => List.mem_append_left _ (h.stored e' he))
        (fun he => List.mem_append_right _ he)
    · rw [hadd] at he
      rw [hseq]
      rcases List.mem_append.1 he with he | he
      · exact ⟨(h.numbered e' he).1, (h.numbered e' he).2.trans (Nat.le_succ _)⟩
      · rw [List.mem_singleton.1 he, hnumber]
        exact ⟨Nat.succ_pos _, le_rfl⟩

theorem Session.leave_delivers (h : ss.Delivers st deposits clock) (hleave : ss.leave = some ss') :
    ss'.Delivers st deposits clock := by
  unfold Session.leave at hleave
  obtain ⟨u, -, rfl⟩ := Option.map_eq_some_iff.1 hleave
  exact h.congr rfl id rfl rfl (.inr rfl)

theorem World.MailInv.apply (h : w.MailInv clock) (hclock : clock ≤ clock')
    (hss : w.sessions i = some ss) (hstep : MailStep w.store o.store o.deposited)
    (ho : ∀ ss', o.session = some ss' → ss'.Delivers w.store w.deposits clock') :
    (w.apply i o).MailInv clock' := by
  refine h.step_of hstep rfl fun j ss' hj => ?_
  by_cases hij : j = i
  · subst hij
    rw [World.sessions_apply, hss] at hj
    rcases World.nextSession_cases hj with hj | ⟨-, hj⟩
    · exact ho ss' hj
    · exact Session.leave_delivers ((h.delivers _ ss hss).later hclock) hj
  · rw [World.sessions_apply_of_ne w hij] at hj
    exact (h.delivers j ss' hj).later hclock

/-- Events that are not requests take envelopes away at most. -/
theorem World.mailStep_other (svc : Service) (w : World) {e : Event} (he : ∀ i now msg, e ≠ .message i now msg)
    (he' : ∀ i now, e ≠ .resume i now) :
    MailStep w.store (w.step svc e).store none ∧ (w.step svc e).deposits = w.deposits := by
  cases e with
  | message => exact absurd rfl (he _ _ _)
  | resume => exact absurd rfl (he' _ _)
  | connect | disconnect =>
    simp only [World.step]
    repeat' split
    all_goals exact ⟨.refl _, rfl⟩
  | sweep | removeMailbox => exact ⟨.fewer List.filter_sublist rfl, rfl⟩
  | createInvite =>
    refine ⟨?_, rfl⟩
    simp only [World.step, RelayStore.addInvite]
    split <;> exact .fewer (.refl _) rfl
  | sweepNext =>
    simp only [World.step, World.sweepNext]
    split <;> exact ⟨.fewer (.refl _) rfl, rfl⟩
  | sweepFiles =>
    simp only [World.step]
    split <;> exact ⟨.fewer (.refl _) rfl, rfl⟩
  | sweepOrphan =>
    simp only [World.step]
    repeat' split
    all_goals exact ⟨.fewer (.refl _) rfl, rfl⟩
  | _ => exact ⟨.fewer (.refl _) rfl, rfl⟩

theorem World.MailInv.delivers_other {e : Event} (h : w.MailInv clock)
    (he : ∀ i now msg, e ≠ .message i now msg) (he' : ∀ i now, e ≠ .resume i now)
    (hi : (w.step svc e).sessions i = some ss') : ss'.Delivers w.store w.deposits clock := by
  cases World.session_step hi with
  | same hss => exact h.delivers i ss' hss
  | connect => exact .of_round_nil (fun h => nomatch h) rfl rfl rfl
  | message => exact absurd rfl (he _ _ _)
  | resume => exact absurd rfl (he' _ _)
  | draw random hss => exact (h.delivers i _ hss).congr rfl id rfl rfl (.inl rfl)
  | poll hss => exact (h.delivers i _ hss).congr rfl id rfl rfl (.inr rfl)
  | leave hss hleave => exact Session.leave_delivers (h.delivers i _ hss) hleave

theorem World.MailInv.step {e : Event} (h : w.MailInv clock) (htime : ∀ t ∈ e.time, clock ≤ t) :
    (w.step svc e).MailInv (e.time.getD clock) := by
  have hkeep : ∀ {clock'}, clock ≤ clock' → w.MailInv clock' := fun hle =>
    ⟨h.sorted, h.stored, h.numbered, fun i ss hi => (h.delivers i ss hi).later hle⟩
  have hstored : ∀ e ∈ w.store.envelopes, e ∈ w.deposits ∧ 0 < e.seq := fun e he =>
    ⟨h.stored e he, (h.numbered e (h.stored e he)).1⟩
  by_cases hmsg : ∃ i now msg, e = .message i now msg
  · obtain ⟨i, now, msg, rfl⟩ := hmsg
    have hle : clock ≤ now := htime now rfl
    refine World.message_rule (P := fun w' => w'.MailInv now) (hkeep hle) fun ss hss hp => ?_
    have hreq := handleMessage_request svc now ss msg w.store w.rate
    exact h.apply hle hss hreq.mailStep fun ss' ho =>
      hreq.delivers hp ((h.delivers i ss hss).later hle) ho
  by_cases hres : ∃ i now, e = .resume i now
  · obtain ⟨i, now, rfl⟩ := hres
    have hle : clock ≤ now := htime now rfl
    refine World.resume_rule (P := fun w' => w'.MailInv now) (hkeep hle) fun ss work hss hp => ?_
    have hres := resume_resumed svc now ss w.store w.rate work
    exact h.apply hle hss hres.mailStep fun ss' ho =>
      resume_delivers ((h.delivers i ss hss).later hle) hp h.sorted hstored ho
  have hmsg' : ∀ i now msg, e ≠ .message i now msg := fun i now msg he => hmsg ⟨i, now, msg, he⟩
  have hres' : ∀ i now, e ≠ .resume i now := fun i now he => hres ⟨i, now, he⟩
  have hle : clock ≤ e.time.getD clock := by
    cases ht : e.time with
    | none => exact le_rfl
    | some t => exact htime t ht
  obtain ⟨hmail, hdep⟩ := World.mailStep_other svc w hmsg' hres'
  refine h.step_of hmail (hdep.trans (List.append_nil _).symm) fun i ss hi => ?_
  exact (h.delivers_other hmsg' hres' hi).later hle

/-! ## What is delivered -/

theorem ackLoop_removes {ids : List Bytes} {rows : List EnvelopeRow} {n : ℕ} (he : e ∈ rows)
    (hgone : e ∉ (RelayStore.ackLoop mb ids rows n).2) : e.mailboxId = mb ∧ e.id ∈ ids := by
  induction ids generalizing rows n with
  | nil => exact absurd he hgone
  | cons id ids ih =>
    by_cases hnamed : e.mailboxId = mb ∧ e.id = id
    · exact ⟨hnamed.1, List.mem_cons.2 (.inl hnamed.2)⟩
    · have hmem := ih (List.mem_filter.2 ⟨he, decide_eq_true hnamed⟩) hgone
      exact ⟨hmem.1, List.mem_cons_of_mem _ hmem.2⟩

/-- Acknowledging removes only envelopes of the session's own mailbox that are named. -/
theorem ack_removes (ht : msg.type = .relayAck) (he : e ∈ w.store.envelopes)
    (hgone : e ∉ (w.step svc (.message i now msg)).store.envelopes) :
    ∃ ss ids, w.sessions i = some ss ∧ ss.mailbox = some e.mailboxId ∧
      decodeIdList msg.payload = some ids ∧ e.id ∈ ids := by
  simp only [World.step] at hgone
  split at hgone
  · exact absurd he hgone
  · rename_i ss hss
    split at hgone
    · exact absurd he hgone
    · simp only [handleMessage, ht, handleAck, needsMailbox] at hgone
      split at hgone
      · exact absurd he hgone
      · rename_i mb hmb
        unfold decoded at hgone
        split at hgone
        · exact absurd he hgone
        · rename_i ids hids
          obtain ⟨hid, hmem⟩ := ackLoop_removes he hgone
          exact ⟨ss, ids, hss, hid ▸ hmb, hids, hmem⟩

/-- When a look ends a push round, everything waiting was sent. -/
theorem World.MailInv.round_complete (h : w.MailInv clock) (hle : clock ≤ now)
    (hss : w.sessions i = some ss) (hp : ss.pending = some (.push collect []))
    (hss' : (w.step svc (.resume i now)).sessions i = some ss') (hdone : ss'.pending = none)
    (he : ss.Waiting w.store now e) : e ∈ ss'.pushed := by
  have hdelivers := (h.delivers i ss hss).later hle
  have hstored : ∀ e ∈ w.store.envelopes, e ∈ w.deposits ∧ 0 < e.seq := fun e he =>
    ⟨h.stored e he, (h.numbered e (h.stored e he)).1⟩
  have hbatch : ss.batch = [] := by rw [Session.batch, hp]; rfl
  simp only [World.step, hss, hp] at hss'
  rw [World.sessions_apply] at hss'
  simp only [resume, resumePush, he.2.1] at hss'
  split at hss'
  · rename_i hend
    obtain rfl := Option.some.inj hss'
    exact hdelivers.complete he.2.1 hbatch h.sorted hstored hend he
  · obtain rfl := Option.some.inj hss'
    cases hdone

/-! ## What is sent -/

def EnvelopeRow.message (e : EnvelopeRow) : WireMessage :=
  ⟨.relayEnvelope, encodeStoredEnvelope ⟨e.id, UInt64.ofInt e.depositedAt, e.tokenHash, e.envelope⟩⟩

def Pending.isPush : Pending → Bool
  | .push _ _ => true
  | _ => false

def World.pushes (svc : Service) (w : World) (i : ℕ) : Event → List WireMessage
  | .resume j now =>
    if j = i ∧ (w.sessions i).any (fun ss => ss.pending.any Pending.isPush) then
      (w.sent svc (.resume j now)).filter fun m => m.type = .relayEnvelope
    else []
  | _ => []

/-- Whether connection `i` is a new one, or asks to collect from the start. -/
def World.startsOver (w : World) (i : ℕ) : Event → Bool
  | .connect j _ _ => j = i && (w.sessions i).isNone
  | .message j _ msg =>
    j = i && msg.type = .relayCollect && (w.sessions i).any fun ss => ss.pending.isNone
  | _ => false

/-- A relay with a clock that never goes back, and the envelopes each connection was sent by push rounds
since it last asked to collect, as a peer who listens would note them down. -/
structure MailRun where
  world : World
  clock : Time
  line : ℕ → List WireMessage

/-- The relay takes the step; what it sends is noted, or noted anew. -/
def MailRun.next (svc : Service) (r : MailRun) (e : Event) : MailRun where
  world := r.world.step svc e
  clock := e.time.getD r.clock
  line i := if r.world.startsOver i e then [] else r.line i ++ r.world.pushes svc i e

def MailRun.Step (svc : Service) (r : MailRun) (e : Event) (r' : MailRun) : Prop :=
  (∀ t ∈ e.time, r.clock ≤ t) ∧ r' = r.next svc e

/-- A relay to which nothing was deposited yet, with no one connected. -/
def MailRun.Start (r : MailRun) : Prop :=
  r.world.store.envelopes = [] ∧ r.world.deposits = [] ∧ ∀ i, r.world.sessions i = none

/-- A request to collect forgets what was sent before it, and no other request touches it. -/
theorem Request.pushed_eq (h : Request svc ss msg st o) (ho : o.session = some ss') :
    ss'.pushed = ss.pushed ∨ msg.type = .relayCollect ∧ ss'.pushed = [] := by
  cases h with
  | mail h =>
    left
    cases h with
    | closed | failed => exact nomatch ho
    | _ => exact Option.some.inj ho ▸ rfl
  | file h =>
    left
    cases h with
    | closed => exact nomatch ho
    | _ => exact Option.some.inj ho ▸ rfl
  | archive h =>
    left
    cases h with
    | closed | failed => exact nomatch ho
    | _ => exact Option.some.inj ho ▸ rfl
  | collects ht rate hmb => exact .inr ⟨ht, Option.some.inj ho ▸ rfl⟩
  | signsIn | signsInToArchive => exact .inl (Option.some.inj ho ▸ rfl)

theorem Session.leave_pushed (h : ss.leave = some ss') : ss'.pushed = ss.pushed := by
  obtain ⟨u, -, rfl⟩ := Option.map_eq_some_iff.1 h
  rfl

/-- What a request leaves of what was sent: nothing was sent before there was a mailbox. -/
theorem handleMessage_pushed (hss : ss.Delivers st deposits clock)
    (ho : World.nextSession (some ss) (handleMessage svc now ss msg st rate) = some ss') :
    ss'.pushed = if msg.type = .relayCollect then [] else ss.pushed := by
  split
  · rename_i ht
    simp only [handleMessage, ht, handleCollect, needsMailbox] at ho
    split at ho
    · rename_i hmb
      obtain rfl := Option.some.inj ho
      refine List.eq_nil_iff_forall_not_mem.2 fun e he => ?_
      have hown := (hss.own e (List.mem_append_left _ he)).2
      rw [hmb] at hown
      exact nomatch hown
    · exact Option.some.inj ho ▸ rfl
  · rename_i ht
    rcases World.nextSession_cases ho with ho | ⟨-, hleave⟩
    · exact ((handleMessage_request svc now ss msg st rate).pushed_eq ho).resolve_right fun h => ht h.1
    · exact Session.leave_pushed hleave

/-- A step of a push round sends what it adds to the round. -/
theorem resumePush_pushed (ss : Session) {batch : List EnvelopeRow}
    (ho : (resumePush now ss st rate collect batch).session = some ss') :
    ss'.pushed.map EnvelopeRow.message = ss.pushed.map EnvelopeRow.message ++
      (resumePush now ss st rate collect batch).replies.filter fun m => m.type = .relayEnvelope := by
  unfold resumePush at ho ⊢
  split at ho
  · exact Option.some.inj ho ▸ (List.append_nil _).symm
  · simp only at ho ⊢
    split at ho
    · rename_i hnone
      rw [if_pos hnone, ← Option.some.inj ho]
      cases collect <;> exact (List.append_nil _).symm
    · rename_i hsome
      rw [if_neg hsome, ← Option.some.inj ho]
      exact (List.append_nil _).symm
  · rw [← Option.some.inj ho]
    exact List.map_append

/-- The rest of any other request sends nothing of the round. -/
theorem resume_pushed (hwork : work.isPush = false)
    (ho : (resume svc now ss st rate work).session = some ss') : ss'.pushed = ss.pushed := by
  have h := resume_resumed svc now ss st rate work
  generalize resume svc now ss st rate work = o at h ho
  cases h with
  | mail h => exact h.session_eq ho ▸ rfl
  | file h => cases h <;> exact Option.some.inj ho ▸ rfl
  | push => exact nomatch hwork
  | agreed | deleteArchive | redactEntries => exact Option.some.inj ho ▸ rfl

/-- What a session was sent, and what is sent on its line when it goes on. -/
theorem World.pushes_resume (hss : w.sessions i = some ss) (hp : ss.pending = some work)
    (ho : World.nextSession (some ss) (resume svc now ss w.store w.rate work) = some ss') :
    ss'.pushed.map EnvelopeRow.message =
      ss.pushed.map EnvelopeRow.message ++ w.pushes svc i (.resume i now) := by
  simp only [World.pushes, World.sent, hss, hp, Option.any_some, true_and]
  cases hwork : work.isPush with
  | false =>
    rw [if_neg Bool.false_ne_true, List.append_nil]
    rcases World.nextSession_cases ho with ho | ⟨-, hleave⟩
    · rw [resume_pushed hwork ho]
    · rw [Session.leave_pushed hleave]
  | true =>
    rw [if_pos rfl]
    cases work with
    | push collect batch =>
      obtain ⟨_, _, _, hsome, -⟩ := resumePush_session now { ss with pending := none } w.store w.rate
        collect batch
      rcases World.nextSession_cases ho with ho | ⟨hnone, -⟩
      · exact resumePush_pushed { ss with pending := none } ho
      · exact nomatch hsome.symm.trans hnone
    | _ => exact nomatch hwork

/-- An event about another session says nothing on the line of session `i`. -/
theorem World.line_other (svc : Service) (w : World) {e : Event} (h : e.session ≠ some i) :
    w.startsOver i e = false ∧ w.pushes svc i e = [] := by
  cases e with
  | connect | message | resume =>
    have hne : ¬ _ = i := fun hji => h (congrArg some hji)
    simp [World.startsOver, World.pushes, hne]
  | _ => exact ⟨rfl, rfl⟩

/-- After every event, what was noted of a session's line is what the session was sent. -/
theorem World.MailInv.line_step {e : Event} {line : List WireMessage} (h : w.MailInv clock)
    (hline : ∀ ss, w.sessions i = some ss → line = ss.pushed.map EnvelopeRow.message)
    (hi : (w.step svc e).sessions i = some ss') :
    (if w.startsOver i e then [] else line ++ w.pushes svc i e) =
      ss'.pushed.map EnvelopeRow.message := by
  have hsame : ∀ {ss : Session}, w.sessions i = some ss → w.startsOver i e = false →
      w.pushes svc i e = [] → ss'.pushed = ss.pushed →
      (if w.startsOver i e then [] else line ++ w.pushes svc i e) =
        ss'.pushed.map EnvelopeRow.message := by
    intro ss hss hstarts hpushes hpushed
    rw [hstarts, hpushes, hpushed, List.append_nil]
    exact hline ss hss
  by_cases hother : e.session = some i
  swap
  · obtain ⟨hstarts, hpushes⟩ := World.line_other svc w hother
    by_cases hrestart : e = .restart
    · subst hrestart
      cases hi
    · exact hsame (World.sessions_step_of_ne svc w hrestart hother ▸ hi) hstarts hpushes rfl
  cases e with
  | connect j peerIp challenge =>
    obtain rfl : j = i := Option.some.inj hother
    cases hss : w.sessions j with
    | none =>
      simp only [World.step, hss, World.sessions_setSession] at hi
      rw [← Option.some.inj hi]
      simp [World.startsOver, hss]
    | some ss =>
      simp only [World.step, hss] at hi
      exact hsame (hss.trans hi) (by simp [World.startsOver, hss]) rfl rfl
  | message j now msg =>
    obtain rfl : j = i := Option.some.inj hother
    cases hss : w.sessions j with
    | none =>
      simp only [World.step, hss] at hi
      cases hi
    | some ss =>
      cases hp : ss.pending with
      | some work =>
        simp only [World.step, hss, hp] at hi
        exact hsame (hss.trans hi) (by simp [World.startsOver, hss, hp]) rfl rfl
      | none =>
        simp only [World.step, hss, hp, World.sessions_apply] at hi
        have hpushed := handleMessage_pushed (h.delivers j ss hss) hi
        by_cases ht : msg.type = .relayCollect
        · rw [hpushed, if_pos ht]
          simp [World.startsOver, hss, hp, ht]
        · exact hsame hss (by simp [World.startsOver, ht]) rfl (hpushed.trans (if_neg ht))
  | resume j now =>
    obtain rfl : j = i := Option.some.inj hother
    cases hss : w.sessions j with
    | none =>
      simp only [World.step, hss] at hi
      cases hi
    | some ss =>
      cases hp : ss.pending with
      | none =>
        simp only [World.step, hss, hp] at hi
        exact hsame (hss.trans hi) rfl (by simp [World.pushes, hss, hp]) rfl
      | some work =>
        simp only [World.step, hss, hp, World.sessions_apply] at hi
        rw [World.pushes_resume hss hp hi, hline ss hss]
        rfl
  | disconnect =>
    cases World.session_step hi with
    | same hss => exact hsame hss rfl rfl rfl
    | leave hss hleave => exact hsame hss rfl rfl (Session.leave_pushed hleave)
  | draw =>
    cases World.session_step hi with
    | same hss | draw _ hss => exact hsame hss rfl rfl rfl
  | poll =>
    cases World.session_step hi with
    | same hss | poll hss => exact hsame hss rfl rfl rfl
  | _ => cases hother

/-- The relay delivers, and what was noted of each line is what its session was sent. -/
structure MailRun.Inv (r : MailRun) : Prop where
  mail : r.world.MailInv r.clock
  line : ∀ i ss, r.world.sessions i = some ss → r.line i = ss.pushed.map EnvelopeRow.message

theorem MailRun.Start.inv {r : MailRun} (h : r.Start) : r.Inv := by
  obtain ⟨hrows, hdep, hnone⟩ := h
  have hnone : ∀ {P : Session → Prop} i ss, r.world.sessions i = some ss → P ss := fun i ss hi => by
    rw [hnone i] at hi
    exact nomatch hi
  exact ⟨⟨by rw [hrows]; exact .nil, by rw [hrows]; simp, by rw [hdep]; simp, hnone⟩, fun i => hnone i⟩

theorem MailRun.Inv.step {r r' : MailRun} {e : Event} (h : r.Inv) (hstep : MailRun.Step svc r e r') :
    r'.Inv := by
  obtain ⟨htime, rfl⟩ := hstep
  exact ⟨h.mail.step htime, fun i ss hi => h.mail.line_step (h.line i) hi⟩

/-- What stands on a line is these envelopes, each once and in the order of their numbers. -/
structure Shows (line : List WireMessage) (rows : List EnvelopeRow) : Prop where
  messages : line = rows.map EnvelopeRow.message
  increasing : rows.Pairwise (·.seq < ·.seq)

theorem MailRun.Inv.shows {r : MailRun} (h : r.Inv) (hi : r.world.sessions i = some ss) :
    Shows (r.line i) ss.pushed :=
  ⟨h.line i ss hi, (h.mail.delivers i ss hi).covers.of_append.sorted⟩

/-- Whatever sessions, sweeps and the operator do in between: the envelopes that push rounds sent on a
connection since it last asked to collect have strictly increasing numbers and were deposited to its
mailbox; a push round ends when every one that has not expired was sent; and acknowledging removes only
envelopes of the session's own mailbox. -/
theorem envelopes_delivered {r : MailRun} (hr : Reachable MailRun.Start (MailRun.Step svc) r) :
    (∀ i ss, r.world.sessions i = some ss → ∃ rows, Shows (r.line i) rows ∧
      ∀ e ∈ rows, e ∈ r.world.deposits ∧ ss.mailbox = some e.mailboxId) ∧
    (∀ i now ss ss' collect, r.clock ≤ now → r.world.sessions i = some ss →
      ss.pending = some (.push collect []) →
      (r.next svc (.resume i now)).world.sessions i = some ss' → ss'.pending = none →
      ∃ rows, Shows ((r.next svc (.resume i now)).line i) rows ∧
        ∀ e ∈ r.world.store.envelopes, ss.mailbox = some e.mailboxId → now < e.expiresAt → e ∈ rows) ∧
    (∀ i now msg, msg.type = .relayAck → ∀ e ∈ r.world.store.envelopes,
      e ∉ (r.next svc (.message i now msg)).world.store.envelopes →
      ∃ ss ids, r.world.sessions i = some ss ∧ ss.mailbox = some e.mailboxId ∧
        decodeIdList msg.payload = some ids ∧ e.id ∈ ids) := by
  have h : r.Inv := hr.invariant (P := MailRun.Inv) (fun _ => MailRun.Start.inv) fun _ _ _ => MailRun.Inv.step
  refine ⟨fun i ss hi => ?_, fun i now ss ss' collect hle hi hp hi' hdone => ?_,
    fun i now msg ht e he hgone => ack_removes ht he hgone⟩
  · exact ⟨ss.pushed, h.shows hi,
      fun e he => (h.mail.delivers i ss hi).own e (List.mem_append_left _ he)⟩
  · have hnext : (r.next svc (.resume i now)).Inv := h.step (e := .resume i now)
      ⟨fun t ht => Option.some.inj ht ▸ hle, rfl⟩
    exact ⟨ss'.pushed, hnext.shows hi', fun e he hmb hlive =>
      h.mail.round_complete hle hi hp hi' hdone ⟨he, hmb, hlive⟩⟩

/-! ### One envelope is deposited and collected -/

def MailRun.tick (svc : Service) (r : MailRun) (e : Event) : Option MailRun :=
  if e.time.all fun t => decide (r.clock ≤ t) then some (r.next svc e) else none

theorem MailRun.step_of_tick {r r' : MailRun} {e : Event} (h : r.tick svc e = some r') :
    MailRun.Step svc r e r' := by
  unfold MailRun.tick at h
  split_ifs at h with htime
  refine ⟨fun t ht => ?_, (Option.some.inj h).symm⟩
  simpa [Option.mem_def.1 ht] using htime

def sampleMailWorld : World :=
  { sampleWorld with
    store := { sampleWorld.store with tokens := [⟨sampleMailbox, byteSum sampleToken, 0⟩] } }

/-- One session deposits; the owner signs in and collects, up to the look that finds nothing more. -/
def sampleDelivery : List Event :=
  [.connect 0 [] [], .message 0 100 ⟨.relayAuth, writeBlob sampleMailbox ++ writeBlob [1]⟩,
    .connect 1 [] [], .draw 1 (List.replicate 16 6),
    .message 1 101 ⟨.relayDeposit,
      writeBlob sampleMailbox ++ writeBlob sampleToken ++ writeU32 86400 ++ writeBlob [7]⟩,
    .resume 1 101, .message 0 102 ⟨.relayCollect, []⟩, .resume 0 102, .resume 0 102]

def Session.sentAll (ss : Session) : Bool :=
  match ss.pending with
  | some (.push _ []) => true
  | _ => false

theorem envelopes_delivered_sample :
    ∃ (r : MailRun) (rows : List EnvelopeRow), r.world.store.envelopes.map (·.seq) = [1] ∧
      Shows ((r.next sampleService (.resume 0 103)).line 0) rows ∧
      ∀ e ∈ r.world.store.envelopes, e ∈ rows := by
  have hrun : (sampleDelivery.foldlM (MailRun.tick sampleService) ⟨sampleMailWorld, 0, fun _ => []⟩).any (fun r =>
      decide (r.clock ≤ 103 ∧ r.world.store.envelopes.map (·.seq) = [1]) &&
      ((r.world.sessions 0).any fun ss =>
        ss.sentAll &&
        decide (∀ e ∈ r.world.store.envelopes, ss.mailbox = some e.mailboxId ∧ 103 < e.expiresAt)) &&
      ((r.next sampleService (.resume 0 103)).world.sessions 0).any fun ss => ss.pending.isNone) =
        true := by
    decide +kernel
  simp only [Option.any_eq_true, Bool.and_eq_true, decide_eq_true_eq, Option.isNone_iff_eq_none] at hrun
  obtain ⟨r, hw, ⟨⟨hle, hseq⟩, ss, hss, hp, hlive⟩, ss', hss', hdone⟩ := hrun
  have hr : Reachable MailRun.Start (MailRun.Step sampleService) r :=
    reachable_foldlM (fun _ _ _ => MailRun.step_of_tick) (.start ⟨rfl, rfl, fun _ => rfl⟩)
      sampleDelivery hw
  unfold Session.sentAll at hp
  split at hp
  · rename_i collect hpending
    obtain ⟨rows, hshows, hall⟩ :=
      (envelopes_delivered hr).2.1 0 103 ss ss' collect hle hss hpending hss' hdone
    exact ⟨r, rows, hseq, hshows, fun e he => hall e he (hlive e he).1 (hlive e he).2⟩
  · cases hp

end PqSuite.Relay
