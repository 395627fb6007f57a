import PqSuite.Client.KeyStore
import PqSuite.Client.Upkeep
import PqSuite.Lib.Program
import PqSuite.Lib.Reach
import PqSuite.Server.ArchiveLog
import PqSuite.System.ArchiveRequests

/-!
# Joining an archive over connections that drop (`MessagingEngine::join_pending_archives`)

A device registers its chat key with a token that is good for one join, and tries until it has an answer:
accepted, it has joined; refused, it gives up. The relay spends the token as it registers the key, so a
second attempt after a lost answer is refused. As long as no answer to a join with a good token is lost,
no device whose key is registered has given up.
-/

namespace PqSuite.ArchiveRun.Device

def sampleSetup : EngineSetup where
  sha256 := Relay.byteSum
  sign _ _ := .ok (List.replicate 513 0)
  verify _ _ _ := true
  sigPublicKeySize := 2
  kemPublicKeySize := 2
  publicDsa := [1]
  privateDsa := [2]
  verify_sign _ _ _ := rfl
  secret := tagCrypto

end PqSuite.ArchiveRun.Device

namespace PqSuite.Joining

open Relay ArchiveRequest Reach
open Program (after)

structure World where
  engine : Engine
  store : RelayStore

/-- One connection to the relay: how connecting ends, how far the request gets, and how it meets the
relay. -/
structure Attempt where
  connect : Except Bytes Unit
  fate : Fate
  visit : Visit

inductive Event where
  /-- The loop tries the archive of a chat. If that is at another address, `out` says what it is told. -/
  | attempt (id : Bytes) (x : Attempt) (out : Outside)
  /-- The device is given access to an archive and makes a chat key for it. -/
  | grant (a : HistoryStore.Archive)
  | forget (id : Bytes)
  | others (store : RelayStore)

section

variable (cfg : EngineSetup) (svc : Service) (address : Bytes)

/-- An attempt to join, up to what the engine is told. -/
def contact (x : Attempt) (a : HistoryStore.Archive) (st : RelayStore) : Except Bytes Unit × RelayStore :=
  match x.connect with
  | .error err => (.error err, st)
  | .ok _ =>
    let (reply, st) := ArchiveRequest.joinArchive cfg svc a.conversationId a.joinToken a.chatPublicKey
      a.chatPrivateKey x.fate x.visit st
    (reply.map fun _ => (), st)

def World.waiting (w : World) (id : Bytes) : Option HistoryStore.Archive :=
  (w.engine.history.archive id).filter fun a =>
    a.state = .granted ∧ a.relayAddress = address ∧ (parseServerAddress address).isSome

def World.attempt (w : World) (id : Bytes) (x : Attempt) (out : Outside) : World :=
  match w.waiting address id with
  | none => { w with engine := after (Engine.joinArchive out id) w.engine }
  | some a =>
    let (told, store) := contact cfg svc x a w.store
    ⟨after (Engine.joinArchive { out with joinArchive := fun _ => told } id) w.engine, store⟩

def World.next (w : World) : Event → World
  | .attempt id x out => w.attempt cfg svc address id x out
  | .grant a => { w with engine.history := (w.engine.history.addArchive a).2 }
  | .forget id => { w with engine.history := w.engine.history.removeArchive id }
  | .others store => { w with store }

def Registered (st : RelayStore) (a : HistoryStore.Archive) : Prop :=
  ∃ k ∈ st.archiveKeys, k.archiveId = a.conversationId ∧ k.keyHash = svc.sha256 a.chatPublicKey

/-- An archive as it is granted: it has the sizes that were checked, and a key that nobody has seen. -/
structure Granted (st : RelayStore) (a : HistoryStore.Archive) : Prop where
  state : a.state = .granted
  sized : Sized a.conversationId a.joinToken a.chatPublicKey
  fresh : ¬Registered svc st a

/-- What else can happen: chat keys are new, and the relay registers nobody else's key for others, who
would have to sign with it. -/
def World.Fair (w : World) : Event → Prop
  | .attempt .. | .forget _ => True
  | .grant a => Granted svc w.store a
  | .others store => ∀ a ∈ w.engine.history.archives, Registered svc store a → Registered svc w.store a

def World.Step (w : World) (e : Event) (w' : World) : Prop := w.Fair svc e ∧ w' = w.next cfg svc address e

def World.Init (w : World) : Prop :=
  (w.engine.history.archives.map (·.conversationId)).Nodup ∧
    ∀ a ∈ w.engine.history.archives, Granted svc w.store a

/-- No answer is lost to a join whose token the relay has. -/
def World.AnswerKept (w : World) : Event → Prop
  | .attempt id x _ => x.fate = .replyLost → ∀ a ∈ w.waiting address id,
      ⟨id, svc.sha256 a.joinToken⟩ ∉ w.store.archiveJoinTokens
  | _ => True

end

/-! ## One attempt -/

variable {cfg : EngineSetup} {svc : Service} {address : Bytes} {w w' : World}

/-- What the engine makes of the answer to one attempt. -/
theorem joinArchive_history (out : Outside) (id : Bytes) (e : Engine) :
    (after (Engine.joinArchive out id) e).history =
      match (e.history.archive id).filter (·.state = .granted) with
      | none => e.history
      | some a =>
        if (parseServerAddress a.relayAddress).isNone then e.history.setArchiveFailed id
        else match out.joinArchive e.asked with
          | .ok _ => e.history.setArchiveJoined id
          | .error err =>
            if mentions err "closed" ∨ mentions err "Unknown archive or join token" ∨
                mentions err "does not match" then e.history.setArchiveFailed id
            else e.history := by
  unfold after Engine.joinArchive
  simp only [EStateM.bind, Program.get_apply, bind]
  cases (e.history.archive id).filter (·.state = .granted) with
  | none => rfl
  | some a =>
    dsimp only
    split_ifs
    · rfl
    · simp only [Engine.ask, bind, EStateM.bind, Program.get_apply, Program.set_apply, pure, EStateM.pure]
      cases out.joinArchive e.asked with
      | ok _ => rfl
      | error err =>
        dsimp only
        split_ifs <;> rfl

/-- A key is registered only by a request with a good token; if its answer arrives, the engine is told. -/
theorem contact_cases (cfg : EngineSetup) (svc : Service) (x : Attempt) (st : RelayStore)
    {a : HistoryStore.Archive}
    (hsized : Sized a.conversationId a.joinToken a.chatPublicKey) :
    (contact cfg svc x a st).2 = st ∨
      ⟨a.conversationId, svc.sha256 a.joinToken⟩ ∈ st.archiveJoinTokens ∧ x.fate ≠ .requestLost ∧
        (contact cfg svc x a st).2.archiveKeys = st.archiveKeys ++
          [⟨a.conversationId, svc.sha256 a.chatPublicKey, a.chatPublicKey, x.visit.now⟩] ∧
        (x.fate = .answered → (contact cfg svc x a st).1 = .ok ()) := by
  unfold contact
  split
  · exact .inl rfl
  dsimp only
  have hended := ended_joinArchive cfg svc x.visit st a.chatPrivateKey x.fate hsized
  generalize ArchiveRequest.joinArchive cfg svc _ _ _ _ x.fate x.visit st = r at hended ⊢
  cases hended with
  | told htaken hfate hr =>
    obtain ⟨m, hm, -, hopen⟩ := htaken
    obtain ⟨hid, htoken, -⟩ := joinRequest_ok hm
    rw [hr]
    exact .inr ⟨hid ▸ htoken ▸ hopen.token, hfate ▸ Fate.noConfusion, rfl, fun _ => rfl⟩
  | untold htaken hfate hr =>
    obtain ⟨m, hm, -, hopen⟩ := htaken
    obtain ⟨hid, htoken, -⟩ := joinRequest_ok hm
    obtain ⟨err, hr⟩ := hr
    rw [hr]
    exact .inr ⟨hid ▸ htoken ▸ hopen.token, hfate ▸ Fate.noConfusion, rfl, hfate ▸ Fate.noConfusion⟩
  | nothing _ hr =>
    obtain ⟨err, hr⟩ := hr
    rw [hr]
    exact .inl rfl

/-- The chat keys of the archives at this relay are registered only if they have been joined. -/
structure World.Sound (svc : Service) (address : Bytes) (w : World) : Prop where
  ids : (w.engine.history.archives.map (·.conversationId)).Nodup
  sized : ∀ a ∈ w.engine.history.archives, Sized a.conversationId a.joinToken a.chatPublicKey
  known : ∀ a ∈ w.engine.history.archives, a.relayAddress = address → Registered svc w.store a →
    a.state = .joined

namespace World.Sound

/-- The archives stay as they are, and none of their keys is registered anew. -/
theorem stay (h : w.Sound svc address) {engine : Engine} {store : RelayStore}
    (hhistory : engine.history = w.engine.history)
    (hkeys : ∀ a ∈ w.engine.history.archives, Registered svc store a → Registered svc w.store a) :
    Sound svc address ⟨engine, store⟩ := by
  refine ⟨?_, ?_, ?_⟩ <;> simp only [hhistory]
  · exact h.ids
  · exact h.sized
  · exact fun a ha haddress hreg => h.known a ha haddress (hkeys a ha hreg)

/-- An archive that waits gets another state; its key is registered only if that is `joined`. -/
theorem settle (h : w.Sound svc address) {id : Bytes} {a : HistoryStore.Archive}
    (ha : w.engine.history.archive id = some a) (hgranted : a.state = .granted)
    {state : Keyring.ArchiveState} {engine : Engine} {store : RelayStore}
    (hhistory : engine.history = w.engine.history.updateArchive id fun a =>
      { a with toArchiveItem := { a.toArchiveItem with state := state, joinToken := [] } })
    (hkeys : ∀ b ∈ w.engine.history.archives, Registered svc store b →
      Registered svc w.store b ∨ b.conversationId = id ∧ state = .joined) :
    Sound svc address ⟨engine, store⟩ := by
  obtain ⟨hmem, hid⟩ := Rows.lookup_eq_some ha
  -- a row of the new table, with the row it comes from
  have hrow : ∀ b ∈ engine.history.archives, ∃ c ∈ w.engine.history.archives,
      (c = a ∧ b = { c with toArchiveItem := { c.toArchiveItem with state := state, joinToken := [] } }) ∨
        c.conversationId ≠ id ∧ b = c := by
    intro b hb
    rw [hhistory, HistoryStore.updateArchive] at hb
    obtain ⟨c, hc, rfl⟩ := List.mem_map.1 hb
    refine ⟨c, hc, ?_⟩
    by_cases hcid : c.conversationId = id
    · refine .inl ⟨List.inj_on_of_nodup_map h.ids hc hmem (hcid.trans hid.symm), if_pos hcid⟩
    · exact .inr ⟨hcid, if_neg hcid⟩
  refine ⟨?_, fun b hb => ?_, fun b hb haddress hreg => ?_⟩
  · have hids : engine.history.archives.map (·.conversationId) =
        w.engine.history.archives.map (·.conversationId) := by
      rw [hhistory, HistoryStore.updateArchive, List.map_map]
      refine List.map_congr_left fun c _ => ?_
      simp only [Function.comp_apply]
      split_ifs <;> rfl
    exact hids ▸ h.ids
  · obtain ⟨c, hc, ⟨-, rfl⟩ | ⟨-, rfl⟩⟩ := hrow b hb
    · exact ⟨(h.sized c hc).1, Nat.two_pow_pos 32, (h.sized c hc).2.2⟩
    · exact h.sized b hc
  · obtain ⟨c, hc, ⟨rfl, rfl⟩ | ⟨hne, rfl⟩⟩ := hrow b hb
    · rcases hkeys c hc hreg with hold | ⟨-, rfl⟩
      · have hjoined := h.known c hc haddress hold
        rw [hgranted] at hjoined
        cases hjoined
      · rfl
    · rcases hkeys b hc hreg with hold | ⟨hbid, -⟩
      · exact h.known b hc haddress hold
      · exact absurd hbid hne

/-- Whatever the engine is told, an attempt that registers nothing keeps what is known. -/
theorem told (h : w.Sound svc address) (out : Outside) (id : Bytes) :
    Sound svc address { w with engine := after (Engine.joinArchive out id) w.engine } := by
  have hhistory := joinArchive_history out id w.engine
  cases hrow : (w.engine.history.archive id).filter (·.state = .granted) with
  | none =>
    rw [hrow] at hhistory
    exact h.stay hhistory fun _ _ hreg => hreg
  | some a =>
    rw [hrow] at hhistory
    obtain ⟨ha, hgranted⟩ := Option.filter_eq_some_iff.1 hrow
    have hsettle : ∀ {state : Keyring.ArchiveState}, (after (Engine.joinArchive out id) w.engine).history =
        (w.engine.history.updateArchive id fun a =>
          { a with toArchiveItem := { a.toArchiveItem with state := state, joinToken := [] } }) →
        Sound svc address { w with engine := after (Engine.joinArchive out id) w.engine } :=
      fun hh => h.settle ha (of_decide_eq_true hgranted) hh fun _ _ hreg => .inl hreg
    dsimp only at hhistory
    split_ifs at hhistory
    · exact hsettle hhistory
    · split at hhistory
      · exact hsettle hhistory
      · split_ifs at hhistory
        · exact hsettle hhistory
        · exact h.stay hhistory fun _ _ hreg => hreg

/-- A key is registered by an attempt that is answered, so the engine is told. -/
theorem attempt (h : w.Sound svc address) (id : Bytes) (x : Attempt) (out : Outside)
    (hkept : w.AnswerKept svc address (.attempt id x out)) :
    (w.attempt cfg svc address id x out).Sound svc address := by
  unfold World.attempt
  cases hwait : w.waiting address id with
  | none => exact h.told out id
  | some a =>
    obtain ⟨ha, hcond⟩ := Option.filter_eq_some_iff.1 hwait
    obtain ⟨hgranted, haddress, hparse⟩ := of_decide_eq_true hcond
    obtain ⟨hmem, hid⟩ := Rows.lookup_eq_some ha
    have hcases := contact_cases cfg svc x w.store (h.sized a hmem)
    dsimp only
    generalize contact cfg svc x a w.store = r at hcases ⊢
    obtain ⟨told, store⟩ := r
    rcases hcases with rfl | ⟨htoken, hsent, hkeys, hanswer⟩
    · exact h.told _ id
    -- the answer is not lost, since the token is good
    have hfate : x.fate = .answered := by
      cases hx : x.fate with
      | requestLost => exact absurd hx hsent
      | replyLost => exact absurd (hid ▸ htoken) (hkept hx a hwait)
      | answered => rfl
    obtain rfl : told = .ok () := hanswer hfate
    have hhistory := joinArchive_history { out with joinArchive := fun _ => .ok () } id w.engine
    rw [ha, Option.filter_some, if_pos (decide_eq_true hgranted)] at hhistory
    dsimp only at hhistory
    rw [haddress, if_neg (Option.isNone_iff_eq_none.not.2 (Option.isSome_iff_ne_none.1 hparse))] at hhistory
    refine h.settle ha hgranted hhistory fun b hb hreg => ?_
    obtain ⟨k, hk, hkid, hkey⟩ := hreg
    rw [hkeys] at hk
    rcases List.mem_append.1 hk with hk | hk
    · exact .inl ⟨k, hk, hkid, hkey⟩
    · rw [List.mem_singleton.1 hk] at hkid
      exact .inr ⟨hkid.symm.trans hid, rfl⟩

/-- The archive is new, or nothing happens. -/
theorem grant (h : w.Sound svc address) {a : HistoryStore.Archive} (ha : Granted svc w.store a) :
    Sound svc address ⟨{ w.engine with history := (w.engine.history.addArchive a).2 }, w.store⟩ := by
  unfold HistoryStore.addArchive
  by_cases hsome : (w.engine.history.archive a.conversationId).isSome = true
  · rw [if_pos hsome]
    exact h
  rw [if_neg hsome]
  have hnew : ∀ b ∈ w.engine.history.archives, b.conversationId ≠ a.conversationId :=
    fun b hb heq => hsome (Rows.lookup_isSome.2 ⟨b, hb, heq⟩)
  refine ⟨?_, fun b hb => ?_, fun b hb haddress hreg => ?_⟩
  · rw [List.map_append, List.map_singleton]
    refine h.ids.append (List.nodup_singleton _) ?_
    rw [List.disjoint_singleton]
    intro hmem
    obtain ⟨b, hb, heq⟩ := List.mem_map.1 hmem
    exact hnew b hb heq
  · rcases List.mem_append.1 hb with hb | hb
    · exact h.sized b hb
    · exact List.mem_singleton.1 hb ▸ ha.sized
  · rcases List.mem_append.1 hb with hb | hb
    · exact h.known b hb haddress hreg
    · exact absurd (List.mem_singleton.1 hb ▸ hreg) ha.fresh

theorem next {e : Event} (h : w.Sound svc address) (hfair : w.Fair svc e)
    (hkept : w.AnswerKept svc address e) : (w.next cfg svc address e).Sound svc address := by
  cases e with
  | attempt id x out => exact h.attempt id x out hkept
  | others store => exact h.stay rfl hfair
  | forget id =>
    have hsub : (w.engine.history.removeArchive id).archives.Sublist w.engine.history.archives :=
      List.filter_sublist
    exact ⟨h.ids.sublist (hsub.map _), fun a ha => h.sized a (hsub.subset ha),
      fun a ha => h.known a (hsub.subset ha)⟩
  | grant a => exact h.grant hfair

end World.Sound

/-- In every run in which no answer to a join with a good token is lost, a device whose chat key is
registered has joined. -/
theorem registered_has_joined
    (h : Reachable (World.Init svc) (Under (World.AnswerKept svc address) (World.Step cfg svc address)) w)
    {a : HistoryStore.Archive} (ha : a ∈ w.engine.history.archives) (haddress : a.relayAddress = address)
    (hreg : Registered svc w.store a) : a.state = .joined := by
  have hsound : w.Sound svc address := by
    refine h.invariant (fun w hinit => ⟨hinit.1, fun a ha => (hinit.2 a ha).sized,
      fun a ha _ hreg => absurd hreg (hinit.2 a ha).fresh⟩) ?_
    rintro w e w' hw ⟨hkept, hfair, rfl⟩
    exact hw.next hfair hkept
  exact hsound.known a ha haddress hreg

/-! ## A device whose answer is lost -/

/-- Nothing that comes from outside matters here besides the relay. -/
def quiet : Outside where
  now := 0
  random _ size := List.replicate size 0
  chatKey _ := ([], [])
  signIn _ := .ok ()
  deleteInArchive _ _ := .done
  fetchEntries _ := .error []
  createArchive _ := .error []
  joinArchive _ := .error []
  home := none

def sampleAddress : Bytes := ascii "relay"

def sampleGranted : HistoryStore.Archive where
  conversationId := sampleArchive
  relayAddress := sampleAddress
  relayId := []
  role := .member
  state := .granted
  archiveKey := List.replicate 32 2
  chatPublicKey := sampleKey
  chatPrivateKey := [6]
  joinToken := sampleToken
  createdAt := 0

def sampleStart : World where
  engine := { history := { archives := [sampleGranted] } }
  store :=
    { archives := [⟨sampleArchive, 2, 0, 1000, 0, byteSum [], 0, 0⟩]
      archiveJoinTokens := [⟨sampleArchive, byteSum sampleToken⟩] }

theorem sampleStart_init : sampleStart.Init sampleService := by
  refine ⟨List.nodup_singleton _, fun a ha => ?_⟩
  obtain rfl := List.mem_singleton.1 ha
  exact ⟨rfl, by unfold Sized; decide, fun ⟨k, hk, _⟩ => nomatch hk⟩

def sampleAttempt (now : Time) (fate : Fate) : Event :=
  .attempt sampleArchive ⟨.ok (), fate, now, { peerIp := [], challenge := [] }, ⟨fun _ => {}⟩⟩ quiet

/-- The state of each archive of the device, and whether its key is registered at this relay. -/
def sampleStates (w : World) : List (Keyring.ArchiveState × Bool) :=
  w.engine.history.archives.map fun a => (a.state, decide (a.relayAddress = sampleAddress) &&
    w.store.archiveKeys.any fun k =>
      k.archiveId = a.conversationId ∧ k.keyHash = sampleService.sha256 a.chatPublicKey)

theorem exists_of_sampleStates {w : World} {state : Keyring.ArchiveState}
    (h : (state, true) ∈ sampleStates w) : ∃ a ∈ w.engine.history.archives,
      a.relayAddress = sampleAddress ∧ Registered sampleService w.store a ∧ a.state = state := by
  obtain ⟨a, ha, heq⟩ := List.mem_map.1 h
  obtain ⟨hstate, hreg⟩ := Prod.mk.inj heq
  obtain ⟨haddress, hany⟩ := Bool.and_eq_true_iff.1 hreg
  obtain ⟨k, hk, hkey⟩ := List.any_eq_true.1 hany
  exact ⟨a, ha, of_decide_eq_true haddress, ⟨k, hk, of_decide_eq_true hkey⟩, hstate⟩

def sampleNext (w : World) (e : Event) : World :=
  w.next ArchiveRun.Device.sampleSetup sampleService sampleAddress e

theorem step_sampleNext (w : World) (now : Time) (fate : Fate) :
    World.Step ArchiveRun.Device.sampleSetup sampleService sampleAddress w (sampleAttempt now fate)
      (sampleNext w (sampleAttempt now fate)) := ⟨trivial, rfl⟩

/-- The relay registers the key, but its answer is lost; asked again, it does not know the token any more,
and the device gives up. -/
theorem lost_answer_fails_join : ∃ w,
    Reachable (World.Init sampleService)
      (World.Step ArchiveRun.Device.sampleSetup sampleService sampleAddress) w ∧
    ∃ a ∈ w.engine.history.archives, a.relayAddress = sampleAddress ∧ Registered sampleService w.store a ∧
      a.state = .failed := by
  have hstates : sampleStates (sampleNext (sampleNext sampleStart (sampleAttempt 1 .replyLost))
      (sampleAttempt 2 .answered)) = [(.failed, true)] := by decide +kernel
  exact ⟨_, ((Reachable.start sampleStart_init).next (step_sampleNext _ 1 .replyLost)).next
    (step_sampleNext _ 2 .answered), exists_of_sampleStates (hstates ▸ List.mem_singleton_self _)⟩

/-- The first request is lost; the second is answered. -/
theorem registered_has_joined_sample : ∃ w : World, ∃ a ∈ w.engine.history.archives,
    Registered sampleService w.store a ∧ a.state = .joined := by
  let w₁ := sampleNext sampleStart (sampleAttempt 1 .requestLost)
  let w₂ := sampleNext w₁ (sampleAttempt 2 .answered)
  have hstates : (sampleStates w₂).map (·.2) = [true] := by decide +kernel
  have hkept : ∀ w now fate, fate ≠ .replyLost →
      World.AnswerKept sampleService sampleAddress w (sampleAttempt now fate) :=
    fun _ _ _ hne heq => absurd heq hne
  have hreach : Reachable (World.Init sampleService)
      (Under (World.AnswerKept sampleService sampleAddress)
        (World.Step ArchiveRun.Device.sampleSetup sampleService sampleAddress)) w₂ :=
    ((Reachable.start sampleStart_init).next
      ⟨hkept _ 1 .requestLost Fate.noConfusion, step_sampleNext _ 1 .requestLost⟩).next
      ⟨hkept w₁ 2 .answered Fate.noConfusion, step_sampleNext w₁ 2 .answered⟩
  obtain ⟨⟨state, registered⟩, hmem, rfl⟩ := List.mem_map.1 (hstates ▸ List.mem_singleton_self true)
  obtain ⟨a, ha, haddress, hreg, -⟩ := exists_of_sampleStates hmem
  exact ⟨w₂, a, ha, hreg, registered_has_joined hreach ha haddress hreg⟩

end PqSuite.Joining
