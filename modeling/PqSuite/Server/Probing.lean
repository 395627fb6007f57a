import PqSuite.Server.Authorisation

/-!
# Whether an ID exists

Somebody who can neither present a token recorded for a mailbox, an archive or a file nor sign with its
key learns nothing from asking for it: a relay that has it and one that does not send the same messages
and close the connection at the same points, with the rate limits and spent challenges that earlier
requests left behind.
-/

namespace PqSuite.Relay

open Reach

variable {svc : Service} {now : Time} {ss : Session} {msg : WireMessage} {st st' : RelayStore}
  {rate : RateLimiter} {w w' : World} {spent : Bool} {id : Bytes} {hash : Digest}

/-! ## Two relays -/

inductive Target where
  | mailbox (id : Bytes)
  | archive (id : Bytes)
  | file (id : Bytes)

variable {target : Target}

def RelayStore.Has (st : RelayStore) : Target → Prop
  | .mailbox id => (st.accessKey id).isSome
  | .archive id => (st.findArchive id).isSome
  | .file id => (st.findFile id).isSome

/-- The tables without it, and without the rows that refer to it. -/
def RelayStore.forget (st : RelayStore) : Target → RelayStore
  | .mailbox id => st.deleteMailbox id
  | .archive id => st.deleteArchive id
  | .file id => (st.deleteFile id []).2

/-- The second relay's tables lack it and are otherwise the same. The bytes in the files folder and the
history of uploads may be any. -/
def Hides (target : Target) (st st' : RelayStore) : Prop :=
  st.Has target ∧
    ∃ disk uploads, st' = { st.forget target with disk := disk, uploads := uploads }

/-- The two relays' sessions and rate limits are the same too. -/
structure World.Twins (target : Target) (w w' : World) : Prop where
  hides : Hides target w.store w'.store
  sessions : w'.sessions = w.sessions
  rate : w'.rate = w.rate

/-! ## Asking without a token or key -/

/-- A token of a file: one that was not redeemed yet or, if `spent` ones count, any that is recorded. -/
def RelayStore.HasFileToken (st : RelayStore) (spent : Bool) (fileId : Bytes) (hash : Digest) : Prop :=
  ∃ t ∈ st.tokensOf fileId, t.tokenHash = hash ∧ (t.redeemed = true → spent = true)

/-- A request on a connection with this challenge that names nothing but the target, with a token the
relay has no record of or a signature that does not verify under the registered key. -/
inductive Probe (svc : Service) (spent : Bool) (st : RelayStore) (challenge : Bytes) :
    Target → WireMessage → Prop
  | deposit {id payload : Bytes} (h : ∀ m, decodeDeposit payload = some m → m.mailboxId = id ∧
      st.tokenValid id (svc.sha256 m.sendToken) = false) :
      Probe svc spent st challenge (.mailbox id) ⟨.relayDeposit, payload⟩
  | prekeyTake {id payload : Bytes} (h : ∀ m, decodePrekeyTake payload = some m → m.mailboxId = id ∧
      st.tokenValid id (svc.sha256 m.sendToken) = false) :
      Probe svc spent st challenge (.mailbox id) ⟨.prekeyTake, payload⟩
  | auth {id payload : Bytes} (h : ∀ m, decodeAuth payload = some m → m.mailboxId = id ∧
      ∀ key, st.accessKey id = some key →
        svc.verify (authSigningInput challenge svc.relayId id) m.signature key = false) :
      Probe svc spent st challenge (.mailbox id) ⟨.relayAuth, payload⟩
  | archiveJoin {id payload : Bytes} (h : ∀ m, decodeArchiveJoin payload = some m →
      m.archiveId = id ∧ ⟨id, svc.sha256 m.joinToken⟩ ∉ st.archiveJoinTokens) :
      Probe svc spent st challenge (.archive id) ⟨.archiveJoin, payload⟩
  | archiveAuth {id payload : Bytes} (h : ∀ m, decodeArchiveAuth payload = some m →
      m.archiveId = id ∧ ∀ key, st.archiveMemberKey id m.keyHash = some key →
        svc.verify (archiveAuthSigningInput challenge svc.relayId id m.keyHash.1) m.signature key =
          false) :
      Probe svc spent st challenge (.archive id) ⟨.archiveAuth, payload⟩
  | fileDownload {id payload : Bytes} (h : ∀ m, decodeFileDownload payload = some m →
      m.fileId = id ∧ ¬st.HasFileToken spent id (svc.sha256 m.token)) :
      Probe svc spent st challenge (.file id) ⟨.fileDownload, payload⟩
  | fileRedeem {id payload : Bytes} (h : ∀ m, decodeFileRedeem payload = some m →
      m.fileId = id ∧ ¬st.HasFileToken spent id (svc.sha256 m.token)) :
      Probe svc spent st challenge (.file id) ⟨.fileRedeem, payload⟩

/-- The caller connects, hangs up, or sends such a request. -/
def World.Probes (svc : Service) (spent : Bool) (target : Target) (w : World) : Event → Prop
  | .connect .. | .disconnect _ => True
  | .message i _ msg => ∀ ss, w.sessions i = some ss →
      Probe svc spent w.store ss.challenge target msg
  | _ => False

/-- A caller does nothing else. -/
def World.Probing (svc : Service) (spent : Bool) (target : Target) : World → List Event → Prop
  | _, [] => True
  | w, e :: es => w.Probes svc spent target e ∧ (w.step svc e).Probing svc spent target es

/-- What the caller sees of each of their events: the messages sent and whether the connection is open
afterwards. -/
def World.transcript (svc : Service) : World → List Event → List (List WireMessage × Bool)
  | _, [] => []
  | w, e :: es =>
    (w.sent svc e, (e.session.bind (w.step svc e).sessions).isSome) ::
      (w.step svc e).transcript svc es

/-! ## The answers -/

/-- Two requests leave the tables as they were and everything else the same. -/
structure Alike (st st' : RelayStore) (o o' : Outcome) : Prop where
  store : o.store = st
  store' : o'.store = st'
  rate : o'.rate = o.rate
  session : o'.session = o.session
  replies : o'.replies = o.replies

namespace Alike

theorem refuse (rate : RateLimiter) (text : String) :
    Alike st st' (refuse st rate ss text) (refuse st' rate ss text) := ⟨rfl, rfl, rfl, rfl, rfl⟩

theorem close (rate : RateLimiter) (text : String) :
    Alike st st' (close st rate text) (close st' rate text) := ⟨rfl, rfl, rfl, rfl, rfl⟩

theorem decoded {α : Type} {m : Option α} {text : String} {k k' : α → Outcome}
    (h : ∀ a, m = some a → Alike st st' (k a) (k' a)) :
    Alike st st' (decoded st rate m text k) (decoded st' rate m text k') := by
  cases m with
  | none => exact close rate text
  | some a => exact h a rfl

theorem limited {key : Bytes} {limit : Int} {text : String} {k k' : RateLimiter → Outcome}
    (h : ∀ rate, Alike st st' (k rate) (k' rate)) :
    Alike st st' (limited st rate ss now key limit text k)
      (limited st' rate ss now key limit text k') := by
  unfold Relay.limited
  split
  · exact h _
  · exact refuse _ text

end Alike

/-- Without the target its tokens and keys are not there either. -/
theorem Hides.mailbox (h : Hides (.mailbox id) st st') :
    st'.accessKey id = none ∧ ∀ hash, st'.tokenValid id hash = false := by
  obtain ⟨-, disk, uploads, rfl⟩ := h
  constructor
  · refine Option.map_eq_none_iff.2 (Rows.lookup_eq_none.2 fun r hr => ?_)
    exact of_decide_eq_true (List.mem_filter.1 hr).2
  · intro hash
    refine List.any_eq_false.2 fun r hr => ?_
    have hne : r.mailboxId ≠ id := of_decide_eq_true (List.mem_filter.1 hr).2
    simp [hne]

theorem Hides.archive (h : Hides (.archive id) st st') :
    st'.findArchive id = none ∧ ∀ keyHash, st'.archiveMemberKey id keyHash = none := by
  obtain ⟨hhas, disk, uploads, rfl⟩ := h
  constructor
  · refine Rows.lookup_eq_none.2 fun a ha => ?_
    exact of_decide_eq_false (mem_archives_deleteArchives.1 ha).2
  · intro keyHash
    refine Option.map_eq_none_iff.2 (List.find?_eq_none.2 fun k hk => ?_)
    obtain ⟨hk, hid⟩ := List.mem_filter.1 hk
    obtain ⟨a, ha, haid⟩ := findArchive_isSome.1 hhas
    have hgone := (mem_keys_deleteArchives.1 hk).2 a ha (haid.trans (of_decide_eq_true hid).symm)
    exact absurd haid (of_decide_eq_false hgone)

theorem Hides.file (h : Hides (.file id) st st') : st'.findFile id = none := by
  obtain ⟨-, disk, uploads, rfl⟩ := h
  refine Rows.lookup_eq_none.2 fun f hf => ?_
  simpa using (List.mem_filter.1 hf).2

theorem find_fileToken (h : ¬st.HasFileToken true id hash) :
    (st.tokensOf id).find? (·.tokenHash = hash) = none :=
  List.find?_eq_none.2 fun t ht hhash => h ⟨t, ht, of_decide_eq_true hhash, fun _ => rfl⟩

/-- Without a token of it a file is not told from one that is not there. -/
theorem checkFileToken_blind (now : Time) (h : ¬st.HasFileToken true id hash) :
    st.checkFileToken id hash now = .noSuchFile ∨ st.checkFileToken id hash now = .badToken := by
  unfold RelayStore.checkFileToken
  split
  · exact .inl rfl
  · rw [find_fileToken h]
    exact .inr rfl

theorem redeemFileToken_blind (h : ¬st.HasFileToken true id hash) :
    st.redeemFileToken id hash = (.noSuchFile, st) ∨ st.redeemFileToken id hash = (.badToken, st) := by
  unfold RelayStore.redeemFileToken
  split_ifs
  · exact .inl rfl
  · rw [find_fileToken h]
    exact .inr rfl

theorem joinArchive_blind (keyHash : Digest) (publicKey : Bytes) (now : Time)
    (h : ⟨id, hash⟩ ∉ st.archiveJoinTokens) :
    st.joinArchive id hash keyHash publicKey now = (.noSuchArchive, st) ∨
      st.joinArchive id hash keyHash publicKey now = (.badToken, st) := by
  unfold RelayStore.joinArchive
  split
  · exact .inl rfl
  · rw [if_pos h]
    exact .inr rfl

/-- Every such request is answered alike. -/
theorem handleMessage_alike (now : Time) (rate : RateLimiter) (hhides : Hides target st st')
    (h : Probe svc true st ss.challenge target msg) :
    Alike st st' (handleMessage svc now ss msg st rate) (handleMessage svc now ss msg st' rate) := by
  cases h with
  | deposit h =>
    refine Alike.decoded fun m hm => ?_
    obtain ⟨rfl, hvalid⟩ := h m hm
    split_ifs
    · exact .refuse rate _
    · refine Alike.limited fun rate => ?_
      simp only [hvalid, hhides.mailbox.2, Bool.not_false, if_true]
      exact .refuse rate _
  | prekeyTake h =>
    refine Alike.decoded fun m hm => Alike.limited fun rate => ?_
    obtain ⟨rfl, hvalid⟩ := h m hm
    simp only [hvalid, hhides.mailbox.2, Bool.not_false, if_true]
    exact .refuse rate _
  | auth h =>
    simp only [handleMessage, handleAuth]
    split
    · exact .close rate _
    · rename_i m hm
      obtain ⟨rfl, hverify⟩ := h m hm
      simp only [hhides.mailbox.1]
      split_ifs
      · exact .close rate _
      · split
        · exact .close rate _
        · rename_i key hkey
          simp only [hverify key hkey, Bool.not_false, if_true]
          exact .close rate _
  | archiveJoin h =>
    simp only [handleMessage, handleArchiveJoin]
    split
    · exact .close rate _
    · rename_i m hm
      obtain ⟨rfl, htoken⟩ := h m hm
      have hgone : st'.joinArchive m.archiveId (svc.sha256 m.joinToken) (svc.sha256 m.publicKey)
          m.publicKey now = (.noSuchArchive, st') := by
        rw [RelayStore.joinArchive, hhides.archive.1]
      simp only [hgone]
      split_ifs
      · exact .refuse _ _
      · exact .refuse _ _
      · exact .refuse _ _
      · rcases joinArchive_blind (svc.sha256 m.publicKey) m.publicKey now htoken with heq | heq
        all_goals
          simp only [heq]
          exact .refuse _ _
  | archiveAuth h =>
    simp only [handleMessage, handleArchiveAuth]
    split
    · exact .close rate _
    · rename_i m hm
      obtain ⟨rfl, hverify⟩ := h m hm
      simp only [hhides.archive.2]
      split_ifs
      · exact .close rate _
      · split
        · exact .close rate _
        · rename_i key hkey
          simp only [hverify key hkey, Bool.not_false, if_true]
          exact .close rate _
  | fileDownload h =>
    refine Alike.decoded fun m hm => Alike.limited fun rate => ?_
    obtain ⟨rfl, htoken⟩ := h m hm
    have hgone : st'.checkFileToken m.fileId (svc.sha256 m.token) now = .noSuchFile := by
      rw [RelayStore.checkFileToken, hhides.file]
    rcases checkFileToken_blind now htoken with heq | heq
    all_goals
      simp only [heq, hgone]
      exact .refuse rate _
  | fileRedeem h =>
    refine Alike.decoded fun m hm => Alike.limited fun rate => ?_
    obtain ⟨rfl, htoken⟩ := h m hm
    have hgone : st'.redeemFileToken m.fileId (svc.sha256 m.token) = (.noSuchFile, st') := by
      rw [RelayStore.redeemFileToken, hhides.file]
      rfl
    rcases redeemFileToken_blind htoken with heq | heq
    all_goals
      simp only [heq, hgone]
      exact .refuse rate _

/-! ## Runs -/

theorem World.Twins.apply (h : w.Twins target w') (i : ℕ) {o o' : Outcome}
    (ho : Alike w.store w'.store o o') : (w.apply i o).Twins target (w'.apply i o') := by
  refine ⟨?_, ?_, ho.rate⟩
  · show Hides target o.store o'.store
    rw [ho.store, ho.store']
    exact h.hides
  · show Function.update w'.sessions i (World.nextSession (w'.sessions i) o') =
      Function.update w.sessions i (World.nextSession (w.sessions i) o)
    rw [h.sessions, World.nextSession, World.nextSession, ho.session]

/-- One event: the relays send the same and stay the same but for the target. -/
theorem World.Twins.step (h : w.Twins target w') {e : Event} (he : w.Probes svc true target e) :
    (w.step svc e).Twins target (w'.step svc e) ∧ w'.sent svc e = w.sent svc e := by
  cases e with
  | connect i peerIp challenge =>
    refine ⟨?_, rfl⟩
    simp only [World.step, h.sessions]
    split
    · exact ⟨h.hides, by simp only [World.setSession, h.sessions], h.rate⟩
    · exact h
  | disconnect i =>
    refine ⟨?_, rfl⟩
    simp only [World.step, h.sessions]
    split
    · exact h
    · split_ifs
      · exact h
      · exact ⟨h.hides, by simp only [World.setSession, h.sessions], h.rate⟩
  | message i now msg =>
    simp only [World.step, World.sent, h.sessions]
    split
    · exact ⟨h, rfl⟩
    · rename_i ss hss
      split
      · exact ⟨h, rfl⟩
      · have halike := handleMessage_alike now w.rate h.hides (he ss hss)
        rw [h.rate]
        exact ⟨h.apply i halike, halike.replies⟩
  | _ => exact he.elim

/-- Two relays that differ only in whether a mailbox, an archive or a file is there answer every sequence
of requests for it alike and close the connections at the same points, as long as the caller has no token
that is recorded for it, spent ones included, and cannot sign with its key. -/
theorem ids_not_probed {target : Target} (h : w.Twins target w') {es : List Event}
    (hprobing : w.Probing svc true target es) : w'.transcript svc es = w.transcript svc es := by
  induction es generalizing w w' with
  | nil => rfl
  | cons e es ih =>
    obtain ⟨hstep, hsent⟩ := h.step hprobing.1
    simp only [World.transcript, hsent, hstep.sessions, ih hstep hprobing.2]

def sampleGuess : List Event :=
  [.connect 0 [] [], .message 0 100 ⟨.relayDeposit,
    writeBlob sampleMailbox ++ writeBlob (List.replicate 32 8) ++ writeU32 86400 ++ writeBlob [7]⟩]

def sampleWithout : World :=
  { sampleMailWorld with store := sampleMailWorld.store.forget (.mailbox sampleMailbox) }

theorem ids_not_probed_sample :
    sampleWithout.transcript sampleService sampleGuess =
        [([], true), ([errorReply "Unknown mailbox or token"], true)] ∧
      sampleWithout.transcript sampleService sampleGuess =
        sampleMailWorld.transcript sampleService sampleGuess := by
  have hcheck : (decodeDeposit (writeBlob sampleMailbox ++ writeBlob (List.replicate 32 8) ++
      writeU32 86400 ++ writeBlob [7])).all (fun m => decide (m.mailboxId = sampleMailbox ∧
        sampleMailWorld.store.tokenValid sampleMailbox (byteSum m.sendToken) = false)) = true := by
    decide +kernel
  have htwins : sampleMailWorld.Twins (.mailbox sampleMailbox) sampleWithout :=
    ⟨⟨rfl, _, _, rfl⟩, rfl, rfl⟩
  have hprobing : sampleMailWorld.Probing sampleService true (.mailbox sampleMailbox) sampleGuess := by
    refine ⟨trivial, fun ss _ => .deposit fun m hm => ?_, trivial⟩
    rw [hm] at hcheck
    exact of_decide_eq_true hcheck
  exact ⟨by decide +kernel, ids_not_probed htwins hprobing⟩

def sampleFile : Bytes := List.replicate 16 5

def sampleFileWorld : World :=
  { sampleWorld with
    store := { sampleWorld.store with
      files := [⟨sampleFile, sampleMailbox, 1, 1, 1, 1000, 0, true, 0⟩]
      fileTokens := [⟨sampleFile, byteSum sampleToken, true⟩, ⟨sampleFile, byteSum [], false⟩] } }

def sampleAgain : List Event :=
  [.connect 0 [] [], .message 0 100 ⟨.fileDownload,
    writeBlob sampleFile ++ writeBlob sampleToken ++ writeU32 0⟩]

/-- A spent token is good for nothing, but tells whether the file is still there. -/
theorem spent_token_tells :
    ∃ (w w' : World) (target : Target) (es : List Event), w.Twins target w' ∧
      w.Probing sampleService false target es ∧
      w'.transcript sampleService es ≠ w.transcript sampleService es := by
  refine ⟨sampleFileWorld, { sampleFileWorld with store := sampleFileWorld.store.forget (.file sampleFile) },
    .file sampleFile, sampleAgain, ⟨⟨rfl, _, _, rfl⟩, rfl, rfl⟩,
    ⟨trivial, fun ss _ => .fileDownload fun m hm => ?_, trivial⟩, by decide +kernel⟩
  have hcheck : (decodeFileDownload (writeBlob sampleFile ++ writeBlob sampleToken ++ writeU32 0)).all
      (fun m => decide (m.fileId = sampleFile ∧ ∀ t ∈ sampleFileWorld.store.tokensOf sampleFile,
        t.tokenHash = byteSum m.token → t.redeemed = true)) = true := by decide +kernel
  rw [hm] at hcheck
  obtain ⟨hid, hspent⟩ := of_decide_eq_true hcheck
  exact ⟨hid, fun ⟨t, ht, hhash, hnot⟩ => nomatch hnot (hspent t ht hhash)⟩

end PqSuite.Relay
