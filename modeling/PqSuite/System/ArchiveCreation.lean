import PqSuite.System.ArchiveJoining

/-!
# Making an archive over connections that drop (`MessagingEngine::create_archive`)

The maker of a chat's archive asks the relay for it and then joins it, both on one connection, and keeps
what it has drawn for the archive only once both have been answered. Between the relay's making the
archive and the answer to the join, a lost answer or a refusal leaves an archive that nobody can use and
that no later attempt can replace.
-/

namespace PqSuite.Creation

open Relay ArchiveRequest
open Program (after Runs)
open Joining (Registered)
open Engine (ArchiveContext)

variable {st : RelayStore}

structure World where
  engine : Engine
  store : RelayStore

/-- One connection to the relay: how connecting and signing in end, the token for this user's own join,
and how far each of the two requests gets. -/
structure Line where
  connect : Except Bytes Unit
  ownToken : Bytes
  create : Fate
  createVisit : Visit
  join : Fate
  joinVisit : Visit

section

variable (cfg : EngineSetup) (svc : Service)

/-- The two requests of `create_archive`; the first failure ends them. -/
def createAndJoin (line : Line) (id : Bytes) (hashes : List Digest) (publicKey privateKey : Bytes)
    (st : RelayStore) : Except Bytes Unit × RelayStore :=
  match line.connect with
  | .error err => (.error err, st)
  | .ok _ =>
    match ArchiveRequest.createArchive svc id hashes line.create line.createVisit st with
    | (.error err, st) => (.error err, st)
    | (.ok _, st) =>
      let (reply, st) := ArchiveRequest.joinArchive cfg svc id line.ownToken publicKey privateKey line.join
        line.joinVisit st
      (reply.map fun _ => (), st)

/-- The chat whose archive a call makes, if what it checks first is met. -/
def archiveToMake (e : Engine) (home : Option (Bytes × Bytes)) (id : Bytes) : Option ArchiveContext :=
  (Engine.archiveContext cfg e.history id).filter fun ctx =>
    ctx.makerFp = cfg.myFpHex ∧ e.history.hasArchive id = false ∧ home.isSome

/-- The hashes the relay is given: of this user's own token, and of those drawn for the others. -/
def tokenHashes (line : Line) (out : Outside) (e : Engine) (ctx : ArchiveContext) : List Digest :=
  svc.sha256 line.ownToken ::
    (List.range ctx.others.length).map fun i => svc.sha256 (out.random (e.asked + 1 + i) 32)

def chatKey (out : Outside) (e : Engine) (ctx : ArchiveContext) : Bytes × Bytes :=
  out.chatKey (e.asked + 1 + ctx.others.length)

/-- A call of `create_archive` for the chat with the given ID, which `conversationId` names. -/
def World.create (w : World) (conversationId id : Bytes) (line : Line) (out : Outside) : World :=
  match archiveToMake cfg w.engine out.home id with
  | none => { w with engine := after (Engine.createArchive cfg out conversationId) w.engine }
  | some ctx =>
    let (told, store) := createAndJoin cfg svc line id (tokenHashes svc line out w.engine ctx)
      (chatKey out w.engine ctx).1 (chatKey out w.engine ctx).2 w.store
    ⟨after (Engine.createArchive cfg { out with createArchive := fun _ => told } conversationId) w.engine,
      store⟩

def World.Holds (w : World) (id : Bytes) : Prop :=
  ∃ a ∈ w.engine.history.archives, a.conversationId = id ∧ a.state = .joined ∧ Registered svc w.store a

/-- The relay has no archive for the chat, or the device has what it needs to use it. -/
def World.Usable (w : World) (id : Bytes) : Prop := w.store.findArchive id = none ∨ w.Holds svc id

/-- The request to make the archive comes to the relay and is admitted. -/
def Arrives (line : Line) (st : RelayStore) (m : ArchiveCreate) : Prop :=
  line.connect = .ok () ∧ line.create ≠ .requestLost ∧ Admitted svc line.createVisit st m

/-- Both requests are answered, and the join is as the relay wants it, in time. -/
def Answered (line : Line) (id publicKey privateKey : Bytes) : Prop :=
  line.create = .answered ∧ line.join = .answered ∧
    line.joinVisit.now < line.createVisit.now + svc.limits.archiveJoinWindowSeconds ∧
    ∃ m, joinRequest cfg svc id line.ownToken publicKey privateKey = .ok m ∧
      Presentable svc line.joinVisit m

/-- What is asked of a call: the relay has no archive for the chat, and if the request to make one arrives
and is admitted, both requests are answered. A call that asks for nothing changes nothing. -/
def World.Finishes (w : World) (id : Bytes) (line : Line) (out : Outside) : Prop :=
  match archiveToMake cfg w.engine out.home id with
  | none => w.Usable svc id
  | some ctx =>
    w.store.findArchive id = none ∧
      (Arrives svc line w.store ⟨id, tokenHashes svc line out w.engine ctx⟩ →
        Answered cfg svc line id (chatKey out w.engine ctx).1 (chatKey out w.engine ctx).2)

end

variable {cfg : EngineSetup} {svc : Service} {w : World}

/-! ## The device -/

/-- The answers to questions that are asked one after the other. -/
theorem mapM_ask {α β : Type} (f : ℕ → β) (l : List α) (e : Engine) :
    (l.mapM fun _ => Engine.ask f) e =
      .ok ((List.range l.length).map fun i => f (e.asked + i)) { e with asked := e.asked + l.length } := by
  induction l generalizing e with
  | nil => rfl
  | cons a l ih =>
    have hstep : (Engine.ask f : EngineM β) e = .ok (f e.asked) { e with asked := e.asked + 1 } := rfl
    rw [List.mapM_cons]
    simp only [bind, EStateM.bind, hstep, ih, pure, EStateM.pure]
    rw [List.length_cons, List.range_succ_eq_map, List.map_cons, List.map_map, Nat.add_zero]
    simp only [Function.comp_def, Nat.add_assoc, Nat.add_comm 1, Nat.succ_eq_add_one]
    rfl

/-- A program that leaves the archives as they are. -/
def Keeps {α : Type} (x : EngineM α) : Prop :=
  ∀ s, Runs (fun e : Engine => e.history.archives) (fun _ _ => False) s x fun _ _ => True

namespace Keeps

variable {α β : Type} {x : EngineM α} {f : α → EngineM β}

theorem after_eq (h : Keeps x) (e : Engine) : (after x e).history.archives = e.history.archives := by
  have hmoves := (h e).moves
  rcases Relation.ReflTransGen.cases_tail_iff _ _ _ |>.1 hmoves with heq | ⟨_, -, hno⟩
  · exact heq
  · exact hno.elim

theorem pure (a : α) : Keeps (pure a : EngineM α) := fun _ => .pure trivial

theorem throw (err : String) : Keeps (throw err : EngineM α) := fun _ => .throw

theorem bind (hx : Keeps x) (hf : ∀ a, Keeps (f a)) : Keeps (x >>= f) :=
  fun s => (hx s).bind fun a s' _ _ => hf a s'

theorem get_bind {f : Engine → EngineM β} (hf : ∀ e, Keeps (f e)) : Keeps (get >>= f) :=
  fun s => .get_bind (hf s s)

theorem ask (f : ℕ → α) : Keeps (Engine.ask f) := fun _ => ⟨.refl, trivial⟩

theorem orThrow (r : Except String α) : Keeps (Engine.orThrow r) := by
  cases r with
  | ok a => exact pure a
  | error err => exact throw err

theorem sign (r : Chat.Record) : Keeps (Engine.sign cfg r) := orThrow _

theorem enqueue (fp : Bytes) (kind : OutboxKind) (id : Bytes) (records : List Bytes) (dueAt : Time) :
    Keeps (Engine.enqueue fp kind id records dueAt) := fun _ => .modify .refl trivial

theorem forM {l : List α} {f : α → EngineM Unit} (hf : ∀ a, Keeps (f a)) : Keeps (l.forM f) :=
  fun _ => .forM (J := fun _ => True) (fun _ _ _ _ => trivial) trivial fun a _ s _ => hf a s

end Keeps

theorem keeps_grantArchive (out : Outside) (a : HistoryStore.Archive) (ctx : ArchiveContext)
    (fp joinToken : Bytes) : Keeps (Engine.grantArchive cfg out a ctx fp joinToken) :=
  (Keeps.ask _).bind fun _ => (Keeps.orThrow _).bind fun _ => (Keeps.sign _).bind fun _ =>
    Keeps.enqueue _ _ _ _ _

theorem keeps_queueCreationRecord (out : Outside) (id : Bytes) :
    Keeps (Engine.queueCreationRecord cfg out id) := by
  unfold Engine.queueCreationRecord Engine.queueArchiveEntry
  refine .get_bind fun e => ?_
  split_ifs
  · split
    · split_ifs
      · refine .get_bind fun e => ?_
        split_ifs
        · exact .enqueue _ _ _ _ _
        · exact .pure _
      · exact .pure _
    · exact .pure _
  · exact .pure _

/-- What is queued for the others leaves the archives as they are. -/
theorem keeps_grants (cfg : EngineSetup) (out : Outside) (id : Bytes) (a : HistoryStore.Archive)
    (ctx : ArchiveContext) (l : List (Bytes × Bytes)) :
    Keeps (do
      l.forM fun x => Engine.grantArchive cfg out a ctx x.1 x.2
      Engine.queueCreationRecord cfg out id) := by
  refine Keeps.bind ?_ fun _ => keeps_queueCreationRecord out id
  exact Keeps.forM fun x => keeps_grantArchive out a ctx x.1 x.2

/-- A call that makes nothing fails at once. -/
theorem createArchive_of_none (out : Outside) {conversationId id : Bytes}
    (hid : hexToBytes conversationId = some id) {e : Engine}
    (h : archiveToMake cfg e out.home id = none) :
    ∃ err, Engine.createArchive cfg out conversationId e = .error err e := by
  simp only [Engine.createArchive, bind, EStateM.bind, Program.get_apply, hid]
  unfold archiveToMake at h
  cases hctx : Engine.archiveContext cfg e.history id with
  | none => exact ⟨_, rfl⟩
  | some ctx =>
    rw [hctx, Option.filter_some] at h
    dsimp only
    split_ifs
    · exact ⟨_, rfl⟩
    · exact ⟨_, rfl⟩
    cases hhome : out.home with
    | none => exact ⟨_, rfl⟩
    | some home => simp_all

/-- A call that makes an archive draws its secrets, and keeps them if it is told that both requests were
answered. -/
theorem createArchive_of_some (cfg : EngineSetup) (out : Outside) {conversationId id : Bytes}
    (hid : hexToBytes conversationId = some id) {e : Engine} {ctx : ArchiveContext}
    (h : archiveToMake cfg e out.home id = some ctx) :
    let archives := (after (Engine.createArchive cfg out conversationId) e).history.archives
    match out.createArchive (e.asked + ctx.others.length + 2) with
    | .error _ => archives = e.history.archives
    | .ok _ => ∃ a, archives = e.history.archives ++ [a] ∧ a.conversationId = id ∧ a.state = .joined ∧
        a.chatPublicKey = (chatKey out e ctx).1 := by
  obtain ⟨hctx, hcond⟩ := Option.filter_eq_some_iff.1 h
  obtain ⟨hmaker, hhas, hhome⟩ := of_decide_eq_true hcond
  obtain ⟨⟨relayAddress, relayId⟩, hhome⟩ := Option.isSome_iff_exists.1 hhome
  intro archives
  have harchives : archives = (after (Engine.createArchive cfg out conversationId) e).history.archives := rfl
  simp only [after, Engine.createArchive, bind, EStateM.bind, Program.get_apply, hid,
    hctx, hmaker, hhas, hhome, ne_eq, not_true, if_false, Bool.false_eq_true] at harchives
  have hask : ∀ {α : Type} (f : ℕ → α) (e : Engine),
      Engine.ask f e = .ok (f e.asked) { e with asked := e.asked + 1 } := fun _ _ => rfl
  simp only [hask, mapM_ask] at harchives
  rw [show e.asked + ctx.others.length + 2 = e.asked + 1 + ctx.others.length + 1 by omega]
  cases hmade : out.createArchive (e.asked + 1 + ctx.others.length + 1) with
  | error err =>
    rw [hmade] at harchives
    exact harchives
  | ok _ =>
    rw [hmade] at harchives
    have hnew : (e.history.archive id).isSome = false := hhas
    simp only [EStateM.bind, Engine.callHistory, bind, Program.get_apply,
      HistoryStore.addArchive, hnew, Bool.false_eq_true, if_false, Program.set_apply, pure,
      EStateM.pure, if_true] at harchives
    have hkeep := fun a l => (keeps_grants cfg out id a ctx l).after_eq
    simp only [after, bind, EStateM.bind] at hkeep
    rw [hkeep] at harchives
    exact ⟨_, harchives, rfl, rfl, rfl⟩

/-! ## The relay -/

/-- Keys are registered for archives that are there (`ON DELETE CASCADE`). -/
def Tidy (st : RelayStore) : Prop := ∀ k ∈ st.archiveKeys, (st.findArchive k.archiveId).isSome = true

/-- Every token of a new archive can be used. -/
theorem mem_foldl_addJoinToken {id : Bytes} {hashes : List Digest} {hash : Digest} (h : hash ∈ hashes)
    {rows : List JoinTokenRow} : ⟨id, hash⟩ ∈ hashes.foldl (RelayStore.addJoinToken id) rows := by
  have hkept : ∀ (hashes : List Digest) {rows : List JoinTokenRow} {r : JoinTokenRow}, r ∈ rows →
      r ∈ hashes.foldl (RelayStore.addJoinToken id) rows := by
    intro hashes
    induction hashes with
    | nil => exact fun hr => hr
    | cons h hashes ih =>
      intro rows r hr
      refine ih ?_
      unfold RelayStore.addJoinToken
      split_ifs
      · exact hr
      · exact List.mem_append_left _ hr
  induction hashes generalizing rows with
  | nil => exact absurd h List.not_mem_nil
  | cons h' hashes ih =>
    rcases List.mem_cons.1 h with rfl | hmem
    · refine hkept hashes ?_
      unfold RelayStore.addJoinToken
      split_ifs with hin
      · exact hin
      · exact List.mem_append_right _ (List.mem_singleton_self _)
    · exact ih hmem

/-- The join that follows the making of an archive is taken if it is presentable and in time. -/
theorem open_withArchive (htidy : Tidy st) {now now' : Time} {m : ArchiveCreate} {j : ArchiveJoin}
    (hadmitted : st.findArchive m.archiveId = none) (hid : j.archiveId = m.archiveId)
    (htoken : svc.sha256 j.joinToken ∈ m.joinTokenHashes) :
    Open svc now' (withArchive svc now st m) j ↔ now' < now + svc.limits.archiveJoinWindowSeconds := by
  let row : ArchiveRow := ⟨m.archiveId, m.joinTokenHashes.length, now,
    now + svc.limits.archiveJoinWindowSeconds, 0, svc.sha256 (archiveGenesisInput m.archiveId), 0, now⟩
  have hfind : (withArchive svc now st m).findArchive j.archiveId = some row := by
    have hrow : Rows.lookup ArchiveRow.id row.id st.archives = none := hadmitted
    rw [hid]
    exact Rows.lookup_concat hrow
  have hkeys : (withArchive svc now st m).keysOf j.archiveId = [] := by
    rw [hid]
    refine List.filter_eq_nil_iff.2 fun k hk heq => ?_
    have hsome := htidy k hk
    rw [of_decide_eq_true heq, hadmitted] at hsome
    exact nomatch hsome
  have hmem : ⟨j.archiveId, svc.sha256 j.joinToken⟩ ∈ (withArchive svc now st m).archiveJoinTokens := by
    rw [hid]
    exact mem_foldl_addJoinToken htoken
  constructor
  · rintro ⟨⟨a, ha, -, htime⟩, -, -⟩
    obtain rfl := Option.some.inj (hfind.symm.trans ha)
    exact htime
  · intro htime
    refine ⟨⟨_, hfind, ?_, htime⟩, hmem, ?_⟩
    · rw [hkeys]
      exact List.length_pos_of_mem htoken
    · rw [hkeys]
      rfl

/-- The archive is made and joined, and the device is told; or it is made and the device is not told; or
nothing has happened. -/
inductive Made (cfg : EngineSetup) (svc : Service) (line : Line) (st : RelayStore) (m : ArchiveCreate)
    (publicKey privateKey : Bytes) (r : Except Bytes Unit × RelayStore) : Prop
  | joined (harrives : Arrives svc line st m)
      (hanswered : Answered cfg svc line m.archiveId publicKey privateKey) (htold : r.1 = .ok ())
      (hkeys : r.2.archiveKeys = st.archiveKeys ++
        [⟨m.archiveId, svc.sha256 publicKey, publicKey, line.joinVisit.now⟩])
  | stranded (harrives : Arrives svc line st m)
      (hunanswered : ¬Answered cfg svc line m.archiveId publicKey privateKey)
      (htold : ∃ err, r.1 = .error err) (hthere : (r.2.findArchive m.archiveId).isSome = true)
  | nothing (hnot : ¬Arrives svc line st m) (htold : ∃ err, r.1 = .error err) (hstore : r.2 = st)

theorem findArchive_withArchive {now : Time} {m : ArchiveCreate} :
    ((withArchive svc now st m).findArchive m.archiveId).isSome = true :=
  Rows.lookup_isSome.2 ⟨_, List.mem_append_right _ (List.mem_singleton_self _), rfl⟩

theorem made_createAndJoin (cfg : EngineSetup) (htidy : Tidy st) (line : Line) {id publicKey : Bytes}
    (privateKey : Bytes) {hashes : List Digest} (hsized : Sized id line.ownToken publicKey)
    (hcount : hashes.length < 2 ^ 32) (hown : svc.sha256 line.ownToken ∈ hashes) :
    Made cfg svc line st ⟨id, hashes⟩ publicKey privateKey
      (createAndJoin cfg svc line id hashes publicKey privateKey st) := by
  unfold createAndJoin
  cases hconnect : line.connect with
  | error err => exact .nothing (fun h => nomatch hconnect.symm.trans h.1) ⟨err, rfl⟩ rfl
  | ok _ =>
    dsimp only
    have hended := ended_createArchive svc line.createVisit st line.create hsized.1 hcount
    generalize ArchiveRequest.createArchive svc id hashes line.create line.createVisit st = r at hended ⊢
    cases hended with
    | nothing hnot hr =>
      obtain ⟨err, rfl⟩ := hr
      exact .nothing (fun h => hnot ⟨h.2.2, h.2.1⟩) ⟨err, rfl⟩ rfl
    | untold hadmitted hfate hr =>
      obtain ⟨err, rfl⟩ := hr
      exact .stranded ⟨hconnect, hfate ▸ Fate.noConfusion, hadmitted⟩
        (fun h => nomatch hfate.symm.trans h.1) ⟨err, rfl⟩ findArchive_withArchive
    | told hadmitted hfate hr =>
      subst hr
      dsimp only
      have harrives : Arrives svc line st ⟨id, hashes⟩ := ⟨hconnect, hfate ▸ Fate.noConfusion, hadmitted⟩
      -- the archive is new, so that only the time can close it
      have hopen : ∀ {m}, joinRequest cfg svc id line.ownToken publicKey privateKey = .ok m →
          (Open svc line.joinVisit.now (withArchive svc line.createVisit.now st ⟨id, hashes⟩) m ↔
            line.joinVisit.now < line.createVisit.now + svc.limits.archiveJoinWindowSeconds) := by
        intro m hm
        obtain ⟨hid, htoken, -⟩ := joinRequest_ok hm
        exact open_withArchive htidy hadmitted.fresh hid (htoken ▸ hown)
      have hjoin := ended_joinArchive cfg svc line.joinVisit
        (withArchive svc line.createVisit.now st ⟨id, hashes⟩) privateKey line.join hsized
      generalize ArchiveRequest.joinArchive cfg svc id _ _ _ line.join line.joinVisit _ = r at hjoin ⊢
      cases hjoin with
      | told htaken hfate' hr =>
        obtain ⟨m, hm, hpresent, hm'⟩ := htaken
        subst hr
        exact .joined harrives ⟨hfate, hfate', (hopen hm).1 hm', m, hm, hpresent⟩ rfl rfl
      | untold _ hfate' hr =>
        obtain ⟨err, rfl⟩ := hr
        exact .stranded harrives (fun h => nomatch hfate'.symm.trans h.2.1) ⟨err, rfl⟩ findArchive_withArchive
      | nothing hnot hr =>
        obtain ⟨err, rfl⟩ := hr
        refine .stranded harrives (fun h => ?_) ⟨err, rfl⟩ findArchive_withArchive
        obtain ⟨-, hfate', htime, m, hm, hpresent⟩ := h
        exact hnot ⟨⟨m, hm, hpresent, (hopen hm).2 htime⟩, hfate' ▸ Fate.noConfusion⟩

/-! ## A call -/

def World.Writable (cfg : EngineSetup) (w : World) (id : Bytes) (line : Line) (out : Outside) : Prop :=
  ∀ ctx ∈ archiveToMake cfg w.engine out.home id,
    Sized id line.ownToken (chatKey out w.engine ctx).1 ∧ ctx.others.length + 1 < 2 ^ 32

theorem World.create_made (svc : Service) {conversationId id : Bytes} (hid : hexToBytes conversationId = some id)
    {line : Line} {out : Outside} (htidy : Tidy w.store) (hsizes : w.Writable cfg id line out)
    {ctx : ArchiveContext} (hctx : archiveToMake cfg w.engine out.home id = some ctx) :
    let w' := w.create cfg svc conversationId id line out
    let m : ArchiveCreate := ⟨id, tokenHashes svc line out w.engine ctx⟩
    let key := chatKey out w.engine ctx
    Arrives svc line w.store m ∧ Answered cfg svc line id key.1 key.2 ∧ w'.Holds svc id ∨
      Arrives svc line w.store m ∧ ¬Answered cfg svc line id key.1 key.2 ∧ ¬w'.Usable svc id ∨
      ¬Arrives svc line w.store m ∧ (w'.Usable svc id ↔ w.store.findArchive id = none) := by
  obtain ⟨hsized, hcount⟩ := hsizes ctx hctx
  have hlength : (tokenHashes svc line out w.engine ctx).length < 2 ^ 32 := by
    rw [tokenHashes, List.length_cons, List.length_map, List.length_range]
    exact hcount
  have hmade := made_createAndJoin cfg htidy line (chatKey out w.engine ctx).2 hsized hlength
    List.mem_cons_self
  -- before the call the device has no archive for the chat
  have hnone : ∀ a ∈ w.engine.history.archives, a.conversationId ≠ id := by
    obtain ⟨-, hcond⟩ := Option.filter_eq_some_iff.1 hctx
    obtain ⟨-, hhas, -⟩ := of_decide_eq_true hcond
    intro a ha heq
    have hsome : w.engine.history.hasArchive id = true := Rows.lookup_isSome.2 ⟨a, ha, heq⟩
    exact nomatch hsome.symm.trans hhas
  dsimp only
  unfold World.create
  rw [hctx]
  dsimp only
  generalize createAndJoin cfg svc line id _ _ _ w.store = r at hmade ⊢
  obtain ⟨told, store⟩ := r
  have hdevice := createArchive_of_some cfg { out with createArchive := fun _ => told } hid hctx
  dsimp only at hdevice
  generalize after (Engine.createArchive cfg { out with createArchive := fun _ => told } conversationId)
    w.engine = engine at hdevice ⊢
  cases hmade with
  | joined harrives hanswered htold hkeys =>
    obtain rfl : told = .ok () := htold
    obtain ⟨a, harchives, haid, hstate, hkey⟩ := hdevice
    refine .inl ⟨harrives, hanswered, a, ?_, haid, hstate, ?_⟩
    · rw [harchives]
      exact List.mem_append_right _ (List.mem_singleton_self a)
    · refine ⟨_, hkeys ▸ List.mem_append_right _ (List.mem_singleton_self _), haid.symm, ?_⟩
      rw [hkey]
      rfl
  | stranded harrives hunanswered htold hthere =>
    obtain ⟨err, rfl⟩ := htold
    refine .inr (.inl ⟨harrives, hunanswered, ?_⟩)
    rintro (habsent | ⟨a, ha, haid, -⟩)
    · rw [habsent] at hthere
      exact nomatch hthere
    · exact hnone a (hdevice ▸ ha) haid
  | nothing hnot htold hstore =>
    obtain ⟨err, rfl⟩ := htold
    obtain rfl : store = w.store := hstore
    refine .inr (.inr ⟨hnot, fun h => ?_, .inl⟩)
    rcases h with habsent | ⟨a, ha, haid, -⟩
    · exact habsent
    · exact absurd haid (hnone a (hdevice ▸ ha))

/-- After a call the relay has no archive for the chat or the device has what it needs to use it, if and
only if the relay had none before and, the request to make one having been admitted, both requests were
answered. A call whose requests are admitted and answered succeeds. -/
theorem archive_usable_iff {conversationId id : Bytes} (hid : hexToBytes conversationId = some id)
    {line : Line} {out : Outside} (htidy : Tidy w.store) (hsizes : w.Writable cfg id line out) :
    ((w.create cfg svc conversationId id line out).Usable svc id ↔ w.Finishes cfg svc id line out) ∧
      ∀ ctx ∈ archiveToMake cfg w.engine out.home id,
        Arrives svc line w.store ⟨id, tokenHashes svc line out w.engine ctx⟩ →
        Answered cfg svc line id (chatKey out w.engine ctx).1 (chatKey out w.engine ctx).2 →
        (w.create cfg svc conversationId id line out).Holds svc id := by
  cases hctx : archiveToMake cfg w.engine out.home id with
  | none =>
    refine ⟨?_, fun ctx h => nomatch h⟩
    obtain ⟨err, hrun⟩ := createArchive_of_none out hid hctx
    unfold World.create World.Finishes
    rw [hctx]
    dsimp only
    rw [after, hrun]
  | some ctx =>
    have hmade := World.create_made svc hid htidy hsizes hctx
    dsimp only at hmade
    unfold World.Finishes
    rw [hctx]
    dsimp only
    rcases hmade with ⟨harrives, hanswered, hholds⟩ | ⟨harrives, hunanswered, hnot⟩ | ⟨hnot, husable⟩
    · exact ⟨⟨fun _ => ⟨harrives.2.2.fresh, fun _ => hanswered⟩, fun _ => .inr hholds⟩, fun _ _ _ _ => hholds⟩
    · refine ⟨⟨fun h => absurd h hnot, fun h => absurd (h.2 harrives) hunanswered⟩, fun ctx' h' _ hans => ?_⟩
      obtain rfl := Option.some.inj h'
      exact absurd hans hunanswered
    · refine ⟨husable.trans ⟨fun h => ⟨h, fun harrives => absurd harrives hnot⟩, fun h => h.1⟩,
        fun ctx' h' harrives _ => ?_⟩
      obtain rfl := Option.some.inj h'
      exact absurd harrives hnot

/-! ## An answer that is lost -/

def sampleOther : Bytes := (byteSum [2]).1

def sampleChat : Bytes :=
  Chat.conversationIdFor ArchiveRun.Device.sampleSetup.toChatCrypto ArchiveRun.Device.sampleSetup.myFp sampleOther

/-- A device with a chat of two whose archive it is to make, and a relay without archives. -/
def sampleStart : World where
  engine := { history := { conversations :=
    [{ id := sampleChat, contactFp := bytesToHex sampleOther, kind := .direct,
       members := [bytesToHex sampleOther] }] } }
  store := {}

def sampleOut : Outside :=
  { Joining.quiet with chatKey := fun _ => (sampleKey, [6]), home := some (Joining.sampleAddress, []) }

/-- A connection of the owner of a mailbox, whose requests meet the given fates. -/
def sampleLine (create join : Fate) : Line where
  connect := .ok ()
  ownToken := sampleToken
  create := create
  createVisit := ⟨1, { peerIp := [], challenge := [], mailbox := some sampleMailbox }, ⟨fun _ => {}⟩⟩
  join := join
  joinVisit := ⟨1, { peerIp := [], challenge := [], mailbox := some sampleMailbox }, ⟨fun _ => {}⟩⟩

def sampleCreate (w : World) (create join : Fate) : World :=
  w.create ArchiveRun.Device.sampleSetup sampleService (bytesToHex sampleChat) sampleChat
    (sampleLine create join) sampleOut

/-- The archives of the device, and whether the relay has one for the chat. -/
def sampleView (w : World) : List Bytes × Bool :=
  (w.engine.history.archives.map (·.conversationId), (w.store.findArchive sampleChat).isSome)

theorem not_usable_of_sampleView {w : World} (h : sampleView w = ([], true)) :
    ¬w.Usable sampleService sampleChat := by
  obtain ⟨hnil, hthere⟩ := Prod.mk.inj h
  rintro (habsent | ⟨a, ha, -⟩)
  · rw [habsent] at hthere
    exact nomatch hthere
  · exact absurd (List.mem_map_of_mem ha) (hnil ▸ List.not_mem_nil)

/-- The relay makes the archive, but its answer is lost: the device has kept nothing of it. A later call
whose requests are both answered is refused, and changes nothing. -/
theorem lost_answer_strands_archive :
    ¬(sampleCreate sampleStart .replyLost .answered).Usable sampleService sampleChat ∧
    ¬(sampleCreate (sampleCreate sampleStart .replyLost .answered) .answered .answered).Usable
      sampleService sampleChat := by
  have hfirst : sampleView (sampleCreate sampleStart .replyLost .answered) = ([], true) := by
    decide +kernel
  have hsecond : sampleView (sampleCreate (sampleCreate sampleStart .replyLost .answered) .answered
      .answered) = ([], true) := by decide +kernel
  exact ⟨not_usable_of_sampleView hfirst, not_usable_of_sampleView hsecond⟩

theorem sampleStart_writable (create join : Fate) : sampleStart.Writable ArchiveRun.Device.sampleSetup
    sampleChat (sampleLine create join) sampleOut := by
  intro ctx hctx
  have hothers : (archiveToMake ArchiveRun.Device.sampleSetup sampleStart.engine sampleOut.home sampleChat).map
      (·.others.length) = some 1 := by decide +kernel
  rw [hctx] at hothers
  have hone : ctx.others.length = 1 := Option.some.inj hothers
  have hsized : Sized sampleChat sampleToken sampleKey := by
    unfold Sized
    decide +kernel
  exact ⟨hsized, by omega⟩

/-- A call whose first request is lost leaves no archive; one whose join is not answered leaves one that
cannot be used. -/
theorem archive_usable_iff_sample :
    sampleStart.Finishes ArchiveRun.Device.sampleSetup sampleService sampleChat
      (sampleLine .requestLost .answered) sampleOut ∧
    ¬sampleStart.Finishes ArchiveRun.Device.sampleSetup sampleService sampleChat
      (sampleLine .answered .requestLost) sampleOut := by
  have hid : hexToBytes (bytesToHex sampleChat) = some sampleChat := hexToBytes_bytesToHex _
  have htidy : Tidy sampleStart.store := fun k hk => nomatch hk
  have hlost : (sampleCreate sampleStart .requestLost .answered).store.findArchive sampleChat = none := by
    have hnone : ((sampleCreate sampleStart .requestLost .answered).store.findArchive sampleChat).isNone := by
      decide +kernel
    exact Option.isNone_iff_eq_none.1 hnone
  have hmade : sampleView (sampleCreate sampleStart .answered .requestLost) = ([], true) := by decide +kernel
  refine ⟨(archive_usable_iff hid htidy (sampleStart_writable _ _)).1.1 (.inl hlost), fun h => ?_⟩
  exact not_usable_of_sampleView hmade ((archive_usable_iff hid htidy (sampleStart_writable _ _)).1.2 h)

end PqSuite.Creation
