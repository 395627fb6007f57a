import PqSuite.Client.ArchiveSync
import PqSuite.Client.KeyStore
import PqSuite.Lib.Reach

/-!
# What the head of an archive has passed

The head of an archive is kept page by page and the records are handed over at the end of the run, so a
run that fails in between has moved the head past records that no later run reads again. `Safe` excludes
that; the invariant behind it is that every number up to a head, the tables' or a run's, is covered: by a
record handed over, by the device's own, or by one that a run still holds.
-/

namespace PqSuite

open Keyring (ArchiveItem)
open Relay (Digest ArchiveEntry ArchiveHead)
open Archive (Head verifyChain)
open Reach

namespace SyncWorld

variable (cfg : Setup) {hist : HistoryStore}

/-- The page ends the run: it does not carry on from the head, or it ends elsewhere than the relay. -/
def Rejects (job : SyncJob) (entries : List ArchiveEntry) (relayHead : ArchiveHead) : Prop :=
  ∀ next ∈ verifyChain cfg.sha256 job.id job.head entries,
    (entries = [] ∨ next.number ≥ relayHead.number) ∧
      (relayHead.number ≠ next.number ∨ relayHead.hash ≠ next.hash)

/-- The attempt ends the run without an entry. -/
def GivesUp (job : SyncJob) (record nonce : Bytes) : AppendOutcome → Prop
  | .appended newHead => ¬ Confirms cfg job record nonce newHead
  | .stale => ¬ job.attempt + 1 < 10
  | .failed => True

/-- A run ends without handing over only while it has read no records: when a page or an append fails,
when there is no chat to hand them to, and when the program ends. An archive is removed only while no
run reads it. -/
def Safe (w : SyncWorld) : SyncEvent → Prop
  | .fetched t entries relayHead => ∀ job ∈ w.jobs t, job.phase = .fetching →
    Rejects cfg job entries relayHead → job.fresh = [] ∧
      (entries = [] ∨ verifyChain cfg.sha256 job.id job.head entries = none)
  | .fetchFailed t => ∀ job ∈ w.jobs t, job.phase = .fetching → job.fresh = []
  | .append t nonce outcome => ∀ job ∈ w.jobs t, job.phase = .appending →
    match job.kind with
    | .append record => GivesUp cfg job record nonce outcome → job.fresh = []
    | .sync | .restore => True
  | .handOver t rebuilt => ∀ job ∈ w.jobs t, job.phase = .caughtUp →
    ((w.rebuild job rebuilt).conversation job.id).isSome ∨ job.fresh = []
  | .restart => ∀ t, ∀ job ∈ w.jobs t, job.fresh = []
  | .removeArchive id => ∀ t, ∀ job ∈ w.jobs t, job.id ≠ id
  | .addArchive .. | .setArchiveJoined _ | .setArchiveFailed _ | .newChat .. | .start .. => True

/-- The entry was handed over, or is the device's own, or a run that is going on has read it. -/
def Covered (w : SyncWorld) (id : Bytes) (n : UInt64) : Prop :=
  (∃ r, (id, r) ∈ w.handed ∧ r.number = n) ∨ (∃ r, (id, r) ∈ w.own ∧ r.number = n) ∨
    ∃ t, ∃ job ∈ w.jobs t, job.id = id ∧ ∃ r ∈ job.fresh, r.number = n

def CoveredTo (w : SyncWorld) (id : Bytes) (number : UInt64) : Prop :=
  ∀ n, 0 < n → n ≤ number → w.Covered id n

structure Inv (w : SyncWorld) : Prop where
  heads : ∀ a ∈ w.history.archives, w.CoveredTo a.conversationId a.headNumber
  jobs : ∀ t, ∀ job ∈ w.jobs t, w.CoveredTo job.id job.head.number

variable {cfg} {w w' : SyncWorld} {t : Thread} {job : SyncJob} {id : Bytes} {n : UInt64}

/-! ## What stays covered -/

@[simp] theorem jobs_setJob (j : Option SyncJob) : (w.setJob t j).jobs t = j := if_pos rfl

theorem jobs_setJob_of_ne {t' : Thread} (ht : t' ≠ t) (j : Option SyncJob) :
    (w.setJob t j).jobs t' = w.jobs t' := if_neg ht

@[simp] theorem setJob_setJob (j j' : Option SyncJob) :
    (w.setJob t j).setJob t j' = w.setJob t j' := by
  have : ∀ t', (if t' = t then j' else if t' = t then j else w.jobs t') =
      if t' = t then j' else w.jobs t' := fun t' => by split_ifs <;> rfl
  simp only [setJob, this]

/-- One run moves on: what the others have read, what was handed over and the device's own stay. -/
theorem Covered.move (h : w.Covered id n) (hhanded : w.handed ⊆ w'.handed) (hown : w.own ⊆ w'.own)
    (hother : ∀ t' ≠ t, w'.jobs t' = w.jobs t')
    (hfresh : ∀ job ∈ w.jobs t, ∀ r ∈ job.fresh, w'.Covered job.id r.number) :
    w'.Covered id n := by
  rcases h with ⟨r, hr, rfl⟩ | ⟨r, hr, rfl⟩ | ⟨t', job, hjob, rfl, r, hr, rfl⟩
  · exact .inl ⟨r, hhanded hr, rfl⟩
  · exact .inr (.inl ⟨r, hown hr, rfl⟩)
  · by_cases ht : t' = t
    · exact hfresh job (ht ▸ hjob) r hr
    · exact .inr (.inr ⟨t', job, (hother t' ht).symm ▸ hjob, rfl, r, hr, rfl⟩)

theorem covered_of_fresh (hjob : job ∈ w.jobs t) {r : ArchivedRecord} (hr : r ∈ job.fresh) :
    w.Covered job.id r.number :=
  .inr (.inr ⟨t, job, hjob, rfl, r, hr, rfl⟩)

theorem mem_updateArchive {h : HistoryStore} {f : HistoryStore.Archive → HistoryStore.Archive}
    {a : HistoryStore.Archive} (ha : a ∈ (h.updateArchive id f).archives) :
    a ∈ h.archives ∨ ∃ b ∈ h.archives, b.conversationId = id ∧ a = f b := by
  obtain ⟨b, hb, rfl⟩ := List.mem_map.1 ha
  by_cases hid : b.conversationId = id
  · exact .inr ⟨b, hb, hid, if_pos hid⟩
  · exact .inl (by simpa only [if_neg hid] using hb)

/-- Every head a step sets has to be covered; the others carry over. -/
theorem Inv.next (h : w.Inv) (hcovered : ∀ id n, w.Covered id n → w'.Covered id n)
    (hheads : ∀ a ∈ w'.history.archives, w'.CoveredTo a.conversationId a.headNumber ∨
      ∃ b ∈ w.history.archives, b.conversationId = a.conversationId ∧ b.headNumber = a.headNumber)
    (hjobs : ∀ t, ∀ job ∈ w'.jobs t, w'.CoveredTo job.id job.head.number ∨ job ∈ w.jobs t) :
    w'.Inv where
  heads a ha := by
    rcases hheads a ha with hto | ⟨b, hb, hid, hnumber⟩
    · exact hto
    · exact fun n hn hle => hid ▸ hcovered _ n (h.heads b hb n hn (hnumber ▸ hle))
  jobs t job hjob := by
    rcases hjobs t job hjob with hto | hold
    · exact hto
    · exact fun n hn hle => hcovered _ n (h.jobs t job hold n hn hle)

theorem Inv.history (h : w.Inv)
    (hheads : ∀ a ∈ hist.archives, a.headNumber = 0 ∨
      ∃ b ∈ w.history.archives, b.conversationId = a.conversationId ∧ b.headNumber = a.headNumber) :
    { w with history := hist }.Inv := by
  refine h.next (fun _ _ hc => hc) (fun a ha => (hheads a ha).imp (fun hzero n hn hle => ?_) id)
    fun _ _ hjob => .inr hjob
  exact absurd (UInt64.lt_of_lt_of_le hn (hzero ▸ hle)) (UInt64.lt_irrefl 0)

/-- A run of the thread takes another state, and may move the head of its archive. -/
theorem Inv.setJob (h : w.Inv) {handed own : List (Bytes × ArchivedRecord)} {j : Option SyncJob}
    (hhanded : w.handed ⊆ handed) (hown : w.own ⊆ own)
    (hfresh : ∀ job ∈ w.jobs t, ∀ r ∈ job.fresh,
      (SyncWorld.setJob ⟨hist, w.jobs, handed, own⟩ t j).Covered job.id r.number)
    (hheads : ∀ a ∈ hist.archives,
      (SyncWorld.setJob ⟨hist, w.jobs, handed, own⟩ t j).CoveredTo a.conversationId a.headNumber ∨
      ∃ b ∈ w.history.archives, b.conversationId = a.conversationId ∧ b.headNumber = a.headNumber)
    (hjob : ∀ job ∈ j,
      (SyncWorld.setJob ⟨hist, w.jobs, handed, own⟩ t j).CoveredTo job.id job.head.number) :
    (SyncWorld.setJob ⟨hist, w.jobs, handed, own⟩ t j).Inv := by
  refine h.next (fun _ _ hc => hc.move hhanded hown (fun t' ht => jobs_setJob_of_ne ht j) hfresh)
    hheads fun t' job hmem => ?_
  by_cases ht : t' = t
  · subst ht
    rw [jobs_setJob] at hmem
    exact .inl (hjob job hmem)
  · rw [jobs_setJob_of_ne ht] at hmem
    exact .inr hmem

/-- A run that has read nothing may end. -/
theorem Inv.drop (h : w.Inv) (hfresh : ∀ job ∈ w.jobs t, job.fresh = []) :
    (w.setJob t none).Inv := by
  refine h.setJob (fun _ hr => hr) (fun _ hr => hr) (fun job hjob r hr => ?_)
    (fun a ha => .inr ⟨a, ha, rfl, rfl⟩) nofun
  rw [hfresh job hjob] at hr
  exact nomatch hr

/-- The head of the run's archive moves to a number the run has come to. -/
theorem Inv.moveHead (h : w.Inv) (hjob : job ∈ w.jobs t) (job' : SyncJob) (hid : job'.id = job.id)
    {number : UInt64} {hash : Digest} {own : List (Bytes × ArchivedRecord)} (hown : w.own ⊆ own)
    (hfresh : job.fresh ⊆ job'.fresh) {w' : SyncWorld}
    (hw' : w' = SyncWorld.setJob
      ⟨w.history.setArchiveHead job.id number hash, w.jobs, w.handed, own⟩ t (some job'))
    (hnumber : w'.CoveredTo job.id number) (hhead : w'.CoveredTo job.id job'.head.number) :
    w'.Inv := by
  subst hw'
  refine h.setJob (fun _ hr => hr) hown (fun j hj r hr => ?_) (fun a ha => ?_) fun j hj => ?_
  · obtain rfl := Option.mem_unique hjob hj
    exact hid ▸ covered_of_fresh (jobs_setJob (some job')) (hfresh hr)
  · rcases mem_updateArchive ha with ha | ⟨b, hb, hbid, rfl⟩
    · exact .inr ⟨a, ha, rfl, rfl⟩
    · split_ifs
      · exact .inl (hbid ▸ hnumber)
      · exact .inr ⟨b, hb, rfl, rfl⟩
  · obtain rfl := Option.some.inj hj
    exact hid ▸ hhead

/-! ## The steps -/

theorem Inv.start (h : w.Inv) (t : Thread) (kind : SyncKind) (id : Bytes) :
    (w.start cfg t kind id).Inv := by
  unfold SyncWorld.start
  split
  · rename_i a hnone hfind
    split_ifs
    · obtain ⟨ha, rfl⟩ := Rows.lookup_eq_some hfind
      refine h.setJob (fun _ hr => hr) (fun _ hr => hr) (fun job hjob => ?_)
        (fun a ha => .inr ⟨a, ha, rfl, rfl⟩) fun job hjob n hn hle => ?_
      · rw [hnone] at hjob
        exact nomatch hjob
      · obtain rfl := Option.some.inj hjob
        refine (h.heads a ha n hn hle).move (fun _ hr => hr) (fun _ hr => hr)
          (fun t' ht => jobs_setJob_of_ne ht _) fun job hjob => ?_
        rw [hnone] at hjob
        exact nomatch hjob
    · exact h
  · exact h

/-- A page that carries on from the run's head covers the numbers up to its end. -/
theorem Inv.readPage (h : w.Inv) (hjob : job ∈ w.jobs t) {entries : List ArchiveEntry} {next : Head}
    (hnext : verifyChain cfg.sha256 job.id job.head entries = some next) {job' : SyncJob}
    (hid : job'.id = job.id) (hhead : job'.head = next)
    (hfresh : job'.fresh =
      job.fresh ++ entries.map (archivedRecord cfg.crypto job.archiveKey job.id)) :
    ({ w with history := w.history.setArchiveHead job.id next.number next.hash }.setJob t
      (some job')).Inv := by
  have hread : ∀ r ∈ job'.fresh,
      ({ w with history := w.history.setArchiveHead job.id next.number next.hash }.setJob t
        (some job')).Covered job.id r.number :=
    fun r hr => hid ▸ covered_of_fresh (jobs_setJob (some job')) hr
  have hsub : job.fresh ⊆ job'.fresh := hfresh ▸ List.subset_append_left ..
  have hto : ({ w with history := w.history.setArchiveHead job.id next.number next.hash }.setJob t
      (some job')).CoveredTo job.id next.number := by
    intro n hn hle
    rcases Archive.le_or_mem_of_verifyChain hnext hle with hle | ⟨e, he, rfl⟩
    · refine (h.jobs t job hjob n hn hle).move (fun _ hr => hr) (fun _ hr => hr)
        (fun t' ht => jobs_setJob_of_ne ht _) fun j hj r hr => ?_
      obtain rfl := Option.mem_unique hjob hj
      exact hread r (hsub hr)
    · exact hread (archivedRecord cfg.crypto job.archiveKey job.id e)
        (hfresh ▸ List.mem_append_right _ (List.mem_map_of_mem he))
  exact h.moveHead hjob job' hid (fun _ hr => hr) hsub rfl hto (hhead ▸ hto)

theorem Inv.fetched (h : w.Inv) (hjob : job ∈ w.jobs t) {entries : List ArchiveEntry}
    {relayHead : ArchiveHead}
    (hsafe : Rejects cfg job entries relayHead → job.fresh = [] ∧
      (entries = [] ∨ verifyChain cfg.sha256 job.id job.head entries = none)) :
    (w.fetched cfg t job entries relayHead).Inv := by
  unfold SyncWorld.fetched
  cases hv : verifyChain cfg.sha256 job.id job.head entries with
  | none =>
    refine h.drop fun j hj => ?_
    obtain rfl := Option.mem_unique hjob hj
    exact (hsafe (by simp [Rejects, hv])).1
  | some next =>
    dsimp only
    split_ifs with hend hother
    · obtain ⟨hfresh, hnil | hnone⟩ := hsafe (by simpa [Rejects, hv] using ⟨hend, hother⟩)
      · subst hnil
        obtain rfl : job.head = next := Option.some.inj hv
        have hread := h.readPage hjob hv (rfl : job.id = job.id) rfl (List.append_nil _).symm
        refine setJob_setJob (some job) none ▸ hread.drop fun j hj => ?_
        obtain rfl := Option.some.inj ((jobs_setJob _).symm.trans hj)
        exact hfresh
      · exact absurd (hv.symm.trans hnone) nofun
    · exact h.readPage hjob hv rfl rfl rfl
    · exact h.readPage hjob hv rfl rfl rfl

/-- A run that keeps what it has read keeps what is covered. -/
theorem Inv.keepJob (h : w.Inv) (hjob : job ∈ w.jobs t) {job' : SyncJob} (hid : job'.id = job.id)
    (hhead : job'.head = job.head) (hfresh : job'.fresh = job.fresh) :
    (w.setJob t (some job')).Inv := by
  have hread : ∀ j ∈ w.jobs t, ∀ r ∈ j.fresh, (w.setJob t (some job')).Covered j.id r.number := by
    intro j hj r hr
    obtain rfl := Option.mem_unique hjob hj
    exact hid ▸ covered_of_fresh (jobs_setJob (some job')) (hfresh ▸ hr)
  refine h.setJob (fun _ hr => hr) (fun _ hr => hr) hread (fun a ha => .inr ⟨a, ha, rfl, rfl⟩) ?_
  intro j hj n hn hle
  obtain rfl := Option.some.inj hj
  rw [hid]
  exact (h.jobs t job hjob n hn (hhead ▸ hle)).move (fun _ hr => hr) (fun _ hr => hr)
    (fun t' ht => jobs_setJob_of_ne ht _) hread

theorem Inv.append (h : w.Inv) (hjob : job ∈ w.jobs t) {record nonce : Bytes}
    {outcome : AppendOutcome} (hsafe : GivesUp cfg job record nonce outcome → job.fresh = []) :
    (w.append cfg t job record nonce outcome).Inv := by
  have hdrop : GivesUp cfg job record nonce outcome → (w.setJob t none).Inv := fun hgive =>
    h.drop fun j hj => Option.mem_unique hjob hj ▸ hsafe hgive
  cases outcome with
  | appended newHead =>
    rw [SyncWorld.append]
    split_ifs with hconfirms
    · obtain ⟨-, -, hnumber, -⟩ := hconfirms
      have hread : ∀ n, w.Covered job.id n → (SyncWorld.setJob
          ⟨w.history.setArchiveHead job.id newHead.number newHead.hash, w.jobs, w.handed,
            w.own ++ [(job.id, ⟨newHead.number, record⟩)]⟩ t
          (some { job with phase := .caughtUp })).Covered job.id n := by
        refine fun n hc => hc.move (fun _ hr => hr) (List.subset_append_left ..)
          (fun t' ht => jobs_setJob_of_ne ht _) fun j hj r hr => ?_
        obtain rfl := Option.mem_unique hjob hj
        exact .inr (.inr ⟨t, _, jobs_setJob _, rfl, r, hr, rfl⟩)
      refine h.moveHead hjob { job with phase := .caughtUp } rfl (List.subset_append_left ..)
        (fun _ hr => hr) rfl
        (fun n hn hle => ?_) fun n hn hle => hread n (h.jobs t job hjob n hn hle)
      rcases Archive.le_or_eq_of_le_add_one (hnumber ▸ hle) with hle | rfl
      · exact hread n (h.jobs t job hjob n hn hle)
      · exact .inr (.inl ⟨_, List.mem_append_right _ (List.mem_singleton_self _), hnumber⟩)
    · exact hdrop hconfirms
  | stale =>
    rw [SyncWorld.append]
    split_ifs with hmore
    · exact h.keepJob hjob rfl rfl rfl
    · exact hdrop hmore
  | failed => exact hdrop trivial

theorem archives_rebuild (w : SyncWorld) (job : SyncJob) (rebuilt : Option NewChat) :
    (w.rebuild job rebuilt).archives = w.history.archives := by
  unfold rebuild
  split_ifs
  · split
    · exact NewChat.archives_make ..
    · rfl
  · rfl

theorem Inv.handOver (h : w.Inv) (hjob : job ∈ w.jobs t) {rebuilt : Option NewChat}
    (hsafe : ((w.rebuild job rebuilt).conversation job.id).isSome ∨ job.fresh = []) :
    (w.handOver t job rebuilt).Inv := by
  refine h.setJob ?_ (fun _ hr => hr) (fun j hj r hr => ?_) (fun a ha => .inr ⟨a, ?_, rfl, rfl⟩) nofun
  · split_ifs
    · exact List.subset_append_left ..
    · exact fun _ hr => hr
  · obtain rfl := Option.mem_unique hjob hj
    rcases hsafe with hchat | hfresh
    · refine .inl ⟨r, ?_, rfl⟩
      change _ ∈ ite _ _ _
      rw [if_pos hchat]
      exact List.mem_append_right _ (List.mem_map_of_mem hr)
    · rw [hfresh] at hr
      exact nomatch hr
  · exact archives_rebuild w job rebuilt ▸ ha

theorem Inv.restart (h : w.Inv) (hsafe : ∀ t, ∀ job ∈ w.jobs t, job.fresh = []) :
    { w with jobs := fun _ => none }.Inv := by
  refine h.next (fun id n hc => ?_) (fun a ha => .inr ⟨a, ha, rfl, rfl⟩) nofun
  rcases hc with hc | hc | ⟨t, job, hjob, -, r, hr, -⟩
  · exact .inl hc
  · exact .inr (.inl hc)
  · rw [hsafe t job hjob] at hr
    exact nomatch hr

theorem Inv.removeArchive (h : w.Inv) {id : Bytes} (hsafe : ∀ t, ∀ job ∈ w.jobs t, job.id ≠ id) :
    { w with
      history := w.history.removeArchive id
      handed := w.handed.filter (·.1 ≠ id)
      own := w.own.filter (·.1 ≠ id) }.Inv := by
  have hcovered : ∀ id' n, id' ≠ id → w.Covered id' n →
      { w with
        history := w.history.removeArchive id
        handed := w.handed.filter (·.1 ≠ id)
        own := w.own.filter (·.1 ≠ id) }.Covered id' n := by
    rintro id' n hne (⟨r, hr, hn⟩ | ⟨r, hr, hn⟩ | hc)
    · exact .inl ⟨r, List.mem_filter.2 ⟨hr, by simpa using hne⟩, hn⟩
    · exact .inr (.inl ⟨r, List.mem_filter.2 ⟨hr, by simpa using hne⟩, hn⟩)
    · exact .inr (.inr hc)
  refine ⟨fun a ha n hn hle => ?_, fun t job hjob n hn hle => ?_⟩
  · obtain ⟨ha, hne⟩ := List.mem_filter.1 ha
    exact hcovered _ n (by simpa using hne) (h.heads a ha n hn hle)
  · exact hcovered _ n (hsafe t job hjob) (h.jobs t job hjob n hn hle)

theorem Init.inv (h : w.Init) : w.Inv where
  heads a ha n hn hle := by
    rw [h.heads a ha] at hle
    exact absurd (UInt64.lt_of_lt_of_le hn hle) (UInt64.lt_irrefl 0)
  jobs t job hjob := by
    rw [h.jobs t] at hjob
    exact nomatch hjob

theorem Inv.step (h : w.Inv) {e : SyncEvent} (hsafe : w.Safe cfg e) : (w.step cfg e).Inv := by
  cases e with
  | addArchive item now =>
    refine h.history fun a ha => ?_
    unfold HistoryStore.addArchive at ha
    split_ifs at ha
    · exact .inr ⟨a, ha, rfl, rfl⟩
    · rcases List.mem_append.1 ha with ha | ha
      · exact .inr ⟨a, ha, rfl, rfl⟩
      · exact .inl (List.mem_singleton.1 ha ▸ rfl)
  | setArchiveJoined id | setArchiveFailed id =>
    refine h.history fun a ha => .inr ?_
    rcases mem_updateArchive ha with ha | ⟨b, hb, -, rfl⟩
    · exact ⟨a, ha, rfl, rfl⟩
    · exact ⟨b, hb, rfl, rfl⟩
  | removeArchive id => exact h.removeArchive hsafe
  | newChat id chat =>
    exact h.history fun a ha => .inr ⟨a, chat.archives_make id w.history ▸ ha, rfl, rfl⟩
  | start t kind id => exact h.start t kind id
  | fetched t entries relayHead =>
    rw [SyncWorld.step]
    split
    · rename_i job hjob
      split_ifs with hphase
      · exact h.fetched hjob (hsafe job hjob hphase)
      · exact h
    · exact h
  | fetchFailed t =>
    rw [SyncWorld.step]
    split
    · rename_i job hjob
      split_ifs with hphase
      · exact h.drop fun j hj => Option.mem_unique hjob hj ▸ hsafe job hjob hphase
      · exact h
    · exact h
  | append t nonce outcome =>
    rw [SyncWorld.step]
    split
    · rename_i job hjob
      split
      · rename_i record hkind hphase
        have hgive := hsafe job hjob hphase
        rw [hkind] at hgive
        exact h.append hjob hgive
      · exact h
    · exact h
  | handOver t rebuilt =>
    rw [SyncWorld.step]
    split
    · rename_i job hjob
      split_ifs with hphase
      · exact h.handOver hjob (hsafe job hjob hphase)
      · exact h
    · exact h
  | restart => exact h.restart hsafe

/-! ## What is handed over has a chat -/

def HasChats (w : SyncWorld) : Prop := ∀ p ∈ w.handed, (w.history.conversation p.1).isSome

theorem HasChats.mono (h : w.HasChats)
    (hchats : ∀ id, (w.history.conversation id).isSome → (hist.conversation id).isSome)
    {handed : List (Bytes × ArchivedRecord)}
    (hhanded : ∀ p ∈ handed, p ∈ w.handed ∨ (hist.conversation p.1).isSome)
    (jobs : Thread → Option SyncJob) (own : List (Bytes × ArchivedRecord)) :
    HasChats ⟨hist, jobs, handed, own⟩ :=
  fun p hp => (hhanded p hp).elim (fun hold => hchats _ (h p hold)) id

theorem isSome_conversation_rebuild {rebuilt : Option NewChat}
    (hc : (w.history.conversation id).isSome) :
    ((w.rebuild job rebuilt).conversation id).isSome := by
  unfold rebuild
  split_ifs
  · split
    · exact NewChat.isSome_conversation_make _ hc
    · exact hc
  · exact hc

theorem HasChats.handOver (h : w.HasChats) (t : Thread) (job : SyncJob) (rebuilt : Option NewChat) :
    (w.handOver t job rebuilt).HasChats := by
  refine h.mono (fun _ hc => isSome_conversation_rebuild hc) (fun p hp => ?_) _ _
  split_ifs at hp with hchat
  · rcases List.mem_append.1 hp with hp | hp
    · exact .inl hp
    · obtain ⟨r, -, rfl⟩ := List.mem_map.1 hp
      exact .inr hchat
  · exact .inl hp

theorem HasChats.step (h : w.HasChats) (cfg : Setup) (e : SyncEvent) : (w.step cfg e).HasChats := by
  cases e with
  | newChat id chat =>
    exact h.mono (fun _ hc => NewChat.isSome_conversation_make _ hc) (fun _ hp => .inl hp) _ _
  | removeArchive id => exact fun p hp => h p (List.mem_filter.1 hp).1
  | addArchive =>
    rw [SyncWorld.step, HistoryStore.addArchive]
    split_ifs <;> exact h
  | setArchiveJoined | setArchiveFailed | restart => exact h
  | start t kind id =>
    rw [SyncWorld.step, SyncWorld.start]
    split
    · split_ifs <;> exact h
    · exact h
  | fetched t entries relayHead =>
    rw [SyncWorld.step]
    split
    · split_ifs
      · unfold SyncWorld.fetched
        split
        · exact h
        · dsimp only
          split_ifs <;> exact h
      · exact h
    · exact h
  | fetchFailed t =>
    rw [SyncWorld.step]
    split
    · split_ifs <;> exact h
    · exact h
  | append t nonce outcome =>
    rw [SyncWorld.step]
    split
    · split
      · unfold SyncWorld.append
        split
        · split_ifs <;> exact h
        · split_ifs <;> exact h
        · exact h
      · exact h
    · exact h
  | handOver t rebuilt =>
    rw [SyncWorld.step]
    split
    · split_ifs
      · exact h.handOver t _ rebuilt
      · exact h
    · exact h

/-! ## No record is passed over -/

def Step (cfg : Setup) (w : SyncWorld) (e : SyncEvent) (w' : SyncWorld) : Prop := w' = w.step cfg e

/-- In every run whose steps are safe, a number up to the head kept for an archive is that of a record
handed over for a chat that exists, of one the device made and appended itself, or of one that a run
still going on has read and will hand over. -/
theorem head_passes_over_nothing {w : SyncWorld}
    (hw : Reachable Init (Under (Safe cfg) (Step cfg)) w) :
    ∀ a ∈ w.history.archives, ∀ n, 0 < n → n ≤ a.headNumber →
      ((w.history.conversation a.conversationId).isSome ∧
        ∃ r, (a.conversationId, r) ∈ w.handed ∧ r.number = n) ∨
      (∃ r, (a.conversationId, r) ∈ w.own ∧ r.number = n) ∨
      ∃ t, ∃ job ∈ w.jobs t, job.id = a.conversationId ∧ ∃ r ∈ job.fresh, r.number = n := by
  have hinv : w.Inv := by
    refine hw.invariant (fun _ => Init.inv) fun w e w' h => ?_
    rintro ⟨hsafe, rfl⟩
    exact h.step hsafe
  have hchats : w.HasChats := by
    refine hw.invariant (fun w h p hp => ?_) fun w e w' h => ?_
    · rw [h.handed] at hp
      exact nomatch hp
    · rintro ⟨-, rfl⟩
      exact h.step cfg e
  intro a ha n hn hle
  rcases hinv.heads a ha n hn hle with ⟨r, hr, hn⟩ | hrest
  · exact .inl ⟨hchats _ hr, r, hr, hn⟩
  · exact .inr hrest

/-! ### A page that was kept and not handed over -/

instance (job : SyncJob) (entries : List ArchiveEntry) (relayHead : ArchiveHead) :
    Decidable (Rejects cfg job entries relayHead) :=
  inferInstanceAs (Decidable (∀ _ ∈ _, _))

instance (job : SyncJob) (record nonce : Bytes) :
    DecidablePred (GivesUp cfg job record nonce)
  | .appended _ | .stale => inferInstanceAs (Decidable ¬_)
  | .failed => isTrue trivial

instance (job : SyncJob) (nonce : Bytes) (outcome : AppendOutcome) : (kind : SyncKind) →
    Decidable (match kind with
      | .append record => GivesUp cfg job record nonce outcome → job.fresh = []
      | .sync | .restore => True)
  | .append _ => inferInstanceAs (Decidable (_ → _))
  | .sync | .restore => isTrue trivial

instance (w : SyncWorld) : DecidablePred (w.Safe cfg)
  | .fetched .. | .fetchFailed _ | .append .. | .handOver .. => inferInstanceAs (Decidable (∀ _ ∈ _, _))
  | .restart | .removeArchive _ => inferInstanceAs (Decidable (∀ _, ∀ _ ∈ _, _))
  | .addArchive .. | .setArchiveJoined _ | .setArchiveFailed _ | .newChat .. | .start .. => isTrue trivial

def safeStep (cfg : Setup) (w : SyncWorld) (e : SyncEvent) : Option SyncWorld :=
  if w.Safe cfg e then some (w.step cfg e) else none

theorem under_of_safeStep (cfg : Setup) (w : SyncWorld) (e : SyncEvent) (w' : SyncWorld)
    (h : w.safeStep cfg e = some w') : Under (Safe cfg) (Step cfg) w e w' := by
  unfold safeStep at h
  split_ifs at h with hsafe
  exact ⟨hsafe, (Option.some.inj h).symm⟩

theorem step_step (cfg : Setup) (w : SyncWorld) (e : SyncEvent) : Step cfg w e (w.step cfg e) := rfl

def sampleSetup : Setup := ⟨tagCrypto, Relay.byteSum⟩

def sampleItem : ArchiveItem where
  conversationId := Archive.sampleId
  relayAddress := ascii "relay"
  relayId := List.replicate 32 1
  role := .member
  state := .joined
  archiveKey := List.replicate 32 2
  chatPublicKey := [3]
  chatPrivateKey := [4]
  joinToken := []

def sampleStart : SyncWorld := ⟨{}, fun _ => none, [], []⟩

theorem sampleStart_init : Init sampleStart := ⟨nofun, fun _ => rfl, rfl, rfl⟩

def sampleHead : ArchiveHead := ⟨2, Archive.secondEntry.hash⟩

def sampleSync : List SyncEvent :=
  [.newChat Archive.sampleId (.direct [9]), .addArchive sampleItem 0, .start .pump .sync Archive.sampleId]

/-- The first page is kept and the next request fails; a restore then goes on behind it. -/
def sampleFailed : List SyncEvent :=
  [.fetched .pump [Archive.firstEntry 1] sampleHead, .fetchFailed .pump,
    .start .interface .restore Archive.sampleId,
    .fetched .interface [Archive.secondEntry] sampleHead, .handOver .interface none]

/-- The first record is never handed over, although the chat is there and nothing is going on. -/
theorem head_passes_over_first_entry :
    ∃ w, Reachable Init (Step sampleSetup) w ∧ (∀ t, (w.jobs t).isNone) ∧
      (w.history.conversation Archive.sampleId).isSome ∧
      ∃ a ∈ w.history.archives, a.conversationId = Archive.sampleId ∧ a.headNumber = 2 ∧
        w.own = [] ∧ w.handed.map (·.2.number) = [2] := by
  refine ⟨(sampleSync ++ sampleFailed).foldl (step sampleSetup) sampleStart,
    reachable_foldl (step_step sampleSetup) (.start sampleStart_init) _, by decide +kernel,
    by decide +kernel, by decide +kernel⟩

def sampleRead : List SyncEvent :=
  [.fetched .pump [Archive.firstEntry 1, Archive.secondEntry] sampleHead, .handOver .pump none]

theorem head_passes_over_nothing_sample :
    ∃ w, (sampleSync ++ sampleRead).foldlM (safeStep sampleSetup) sampleStart = some w ∧
      ∃ a ∈ w.history.archives, a.headNumber = 2 ∧
      (((w.history.conversation a.conversationId).isSome ∧
        ∃ r, (a.conversationId, r) ∈ w.handed ∧ r.number = 1) ∨
      (∃ r, (a.conversationId, r) ∈ w.own ∧ r.number = 1) ∨
      ∃ t, ∃ job ∈ w.jobs t, job.id = a.conversationId ∧ ∃ r ∈ job.fresh, r.number = 1) := by
  have hrun : ((sampleSync ++ sampleRead).foldlM (safeStep sampleSetup) sampleStart).any
      (fun w => ∃ a ∈ w.history.archives, a.headNumber = 2) = true := by
    decide +kernel
  obtain ⟨w, hw, hP⟩ := (Option.any_eq_true _ _).1 hrun
  obtain ⟨a, ha, hhead⟩ := of_decide_eq_true hP
  refine ⟨w, hw, a, ha, hhead, head_passes_over_nothing
    (reachable_foldlM (under_of_safeStep sampleSetup) (.start sampleStart_init) _ hw) a ha 1
    (by decide) (hhead ▸ by decide)⟩

end SyncWorld

end PqSuite
