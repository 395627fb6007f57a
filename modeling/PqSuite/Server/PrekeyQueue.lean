import PqSuite.Lib.Fifo
import PqSuite.Lib.Reach
import PqSuite.Server.Mailboxes
import PqSuite.Server.Prekeys
import PqSuite.Server.Service

/-!
# The prekey store as a queue

What the prekeys of a mailbox are for, without rows and times: a queue of one-time prekeys, a place for
one last-resort prekey, and the generation both belong to, and beside the pools how often each send token
has taken a prekey in each hour. The store, which finds the oldest row by time and row ID, gives the same
answers as long as its clock does not go back.
-/

namespace PqSuite.Relay

/-! ## Requests and answers -/

/-- A request about prekeys. What is put has passed `decode_prekey_put`. -/
inductive PrekeyOp where
  | put (mailboxId : Bytes) (m : PrekeyPut) (wellFormed : m.wellFormed = true)
  | take (mailboxId : Bytes) (tokenHash : Digest)
  | status (mailboxId : Bytes)
  | sweep

inductive Handout where
  | oneTime (p : PrekeyEntry)
  | lastResort (p : PrekeyEntry)
  | rateLimited
  | empty
  deriving DecidableEq

inductive PrekeyReply where
  | put (r : RelayStore.PrekeyPutResult)
  | take (h : Handout)
  | status (st : PrekeyStatus)
  | swept
  deriving DecidableEq

def PrekeyRow.entry (r : PrekeyRow) : PrekeyEntry := ⟨r.id, r.lastResort, r.blob⟩

def RelayStore.PrekeyTakeResult.handout : RelayStore.PrekeyTakeResult → Handout
  | .ok row => if row.lastResort then .lastResort row.entry else .oneTime row.entry
  | .rateLimited => .rateLimited
  | .empty => .empty

def PrekeyOp.run (limits : RelayLimits) (now : Time) (s : RelayStore) :
    PrekeyOp → PrekeyReply × RelayStore
  | .put mb m _ =>
    let (r, s) := s.putPrekeys mb m.replace m.generation m.prekeys now limits.maxPrekeys
    (.put r, s)
  | .take mb tokenHash =>
    let (r, s) := s.takePrekey mb tokenHash now limits.prekeyTakesPerHour
    (.take r.handout, s)
  | .status mb => (.status (s.prekeyStatus mb), s)
  | .sweep => (.swept, s.sweepPrekeyTakes now)

/-! ## What it is for -/

/-- The prekeys of one mailbox, and the numbers of the one-time prekeys that were handed out. -/
structure Pool where
  queue : Fifo.Queue PrekeyEntry := {}
  lastResort : Option PrekeyEntry := none
  generation : Option Bytes := none
  handed : List ℕ := []

/-- The pools, how many takes each token was allowed in each hour, and which got a one-time prekey. -/
structure Pools where
  pool : Bytes → Pool := fun _ => {}
  taken : Digest → Int → ℕ := fun _ _ => 0
  got : List (Digest × Int) := []

namespace Pool

def has (p : Pool) (id : Bytes) : Bool :=
  p.queue.toList.any (·.id = id) || p.lastResort.any (·.id = id)

def cleared (p : Pool) : Pool := { p with queue := p.queue.clear, lastResort := none }

def base (p : Pool) (replace : Bool) : Pool := if replace then p.cleared else p

def put (p : Pool) (m : PrekeyPut) (maxOneTime : ℕ) : RelayStore.PrekeyPutResult × Pool :=
  let new := m.prekeys.filter (!·.lastResort)
  if m.replace = false ∧ p.generation.any (· ≠ m.generation) then (.wrongGeneration, p)
  else if (p.base m.replace).queue.toList.length + new.length > maxOneTime then (.tooMany, p)
  else if m.prekeys.any fun e => (p.base m.replace).has e.id then (.duplicate, p)
  else
    (.ok, { p.base m.replace with
      queue := (p.base m.replace).queue.put new
      lastResort := (m.prekeys.find? (·.lastResort)).or (p.base m.replace).lastResort
      generation := some m.generation })

/-- A put that replaces leaves what it brought. -/
theorem put_of_replace {p : Pool} {m : PrekeyPut} {maxOneTime : ℕ} (hreplace : m.replace = true)
    (hok : (p.put m maxOneTime).1 = .ok) :
    (p.put m maxOneTime).2.queue.toList = m.prekeys.filter (!·.lastResort) ∧
      (p.put m maxOneTime).2.lastResort = m.prekeys.find? (·.lastResort) := by
  unfold put at hok ⊢
  dsimp only at hok ⊢
  split_ifs at hok ⊢
  simp [base, cleared, hreplace]

/-- The last-resort prekey, or what is said if there is none. -/
def fallback (p : Pool) (none : Handout) : Handout := (p.lastResort.map .lastResort).getD none

def status (p : Pool) : PrekeyStatus where
  oneTime := UInt32.ofNat p.queue.toList.length
  lastResort := p.lastResort.isSome
  generation := p.generation.getD []

end Pool

namespace Pools

def setPool (ps : Pools) (mb : Bytes) (p : Pool) : Pools :=
  { ps with pool := Function.update ps.pool mb p }

@[simp] theorem setPool_pool_self (ps : Pools) (mb : Bytes) (p : Pool) : (ps.setPool mb p).pool mb = p := by
  simp [setPool]

@[simp] theorem setPool_pool_of_ne {mb mb' : Bytes} (hne : mb' ≠ mb) (ps : Pools) (p : Pool) :
    (ps.setPool mb p).pool mb' = ps.pool mb' := by
  simp [setPool, hne]

@[simp] theorem setPool_pool (ps : Pools) (mb : Bytes) : ps.setPool mb (ps.pool mb) = ps := by
  rw [setPool, Function.update_eq_self]

def countTake (ps : Pools) (tokenHash : Digest) (hour : Int) : Pools :=
  { ps with
    taken := fun t h => if t = tokenHash ∧ h = hour then ps.taken t h + 1 else ps.taken t h }

/-- Within its allowance a token gets the one-time prekey that was put first, if there is one. -/
def take (ps : Pools) (mb : Bytes) (tokenHash : Digest) (hour : Int) (perHour : ℕ) : Handout × Pools :=
  if ps.taken tokenHash hour ≥ perHour then ((ps.pool mb).fallback .rateLimited, ps)
  else
    let ps := ps.countTake tokenHash hour
    match (ps.pool mb).queue.waiting.head? with
    | some (n, e) =>
      (.oneTime e,
        { ps.setPool mb { ps.pool mb with
            queue := (ps.pool mb).queue.rest, handed := (ps.pool mb).handed ++ [n] } with
          got := ps.got ++ [(tokenHash, hour)] })
    | none => ((ps.pool mb).fallback .empty, ps)

/-- The last-resort prekey goes out only when the queue is empty or the token is over its allowance. -/
theorem take_eq_lastResort {ps : Pools} {mb : Bytes} {t : Digest} {hour : Int} {perHour : ℕ}
    {e : PrekeyEntry} (h : (ps.take mb t hour perHour).1 = .lastResort e) :
    (ps.pool mb).queue.toList = [] ∨ perHour ≤ ps.taken t hour := by
  by_cases hover : ps.taken t hour ≥ perHour
  · exact .inr hover
  left
  rw [take, if_neg hover] at h
  dsimp only at h
  split at h
  · exact nomatch h
  · rename_i hnone
    exact List.map_eq_nil_iff.2 (List.head?_eq_none_iff.1 hnone)

/-- The answer a request should get. `known` says which mailboxes there are. -/
def run (limits : RelayLimits) (known : Bytes → Bool) (now : Time) (ps : Pools) :
    PrekeyOp → PrekeyReply × Pools
  | .put mb m _ =>
    if known mb then
      let (r, p) := (ps.pool mb).put m limits.maxPrekeys
      (.put r, ps.setPool mb p)
    else (.put .noSuchMailbox, ps)
  | .take mb tokenHash =>
    let (h, ps) := ps.take mb tokenHash (now.tdiv 3600) limits.prekeyTakesPerHour
    (.take h, ps)
  | .status mb => (.status (ps.pool mb).status, ps)
  | .sweep => (.swept, ps)

end Pools

/-! ## The rows after a request -/

namespace RelayStore

variable {s : RelayStore} {mb mb' : Bytes} {now : Time}

theorem filter_insertPrekey_of_ne (hne : mb' ≠ mb) (rows : List PrekeyRow) (p : PrekeyEntry) :
    (insertPrekey mb now rows p).filter (·.mailboxId = mb') = rows.filter (·.mailboxId = mb') := by
  have hnew : ([⟨mb, p.id, p.blob, p.lastResort, now⟩] : List PrekeyRow).filter
      (·.mailboxId = mb') = [] := by simp [Ne.symm hne]
  rw [insertPrekey, List.filter_append, hnew, List.append_nil]
  split_ifs
  · rw [List.filter_filter]
    refine List.filter_congr fun r _ => ?_
    by_cases hr : r.mailboxId = mb' <;> simp [hr, hne]
  · rfl

theorem filter_foldl_insertPrekey_of_ne (hne : mb' ≠ mb) (entries : List PrekeyEntry)
    (rows : List PrekeyRow) :
    (entries.foldl (insertPrekey mb now) rows).filter (·.mailboxId = mb') =
      rows.filter (·.mailboxId = mb') := by
  induction entries generalizing rows with
  | nil => rfl
  | cons p entries ih => rw [List.foldl_cons, ih, filter_insertPrekey_of_ne hne]

/-- Without a last-resort prekey among those that are put, the one that is there stays. -/
theorem lastResort_foldl_insertPrekey_of_none {entries : List PrekeyEntry}
    (h : ∀ p ∈ entries, p.lastResort = false) (rows : List PrekeyRow) :
    (entries.foldl (insertPrekey mb now) rows).filter (·.lastResort) = rows.filter (·.lastResort) := by
  induction entries generalizing rows with
  | nil => rfl
  | cons p entries ih =>
    have hp : p.lastResort = false := h p List.mem_cons_self
    rw [List.foldl_cons, ih fun q hq => h q (List.mem_cons_of_mem _ hq)]
    simp [insertPrekey, hp, List.filter_append]

/-- A last-resort prekey that is put takes the place of the one before. -/
theorem lastResort_foldl_insertPrekey {entries : List PrekeyEntry}
    (hone : (entries.filter (·.lastResort)).length ≤ 1) {rows : List PrekeyRow}
    (hrows : ∀ r ∈ rows, r.mailboxId = mb) :
    ((entries.foldl (insertPrekey mb now) rows).filter (·.lastResort)).map (·.entry) =
      ((entries.find? (·.lastResort)).map ([·])).getD
        ((rows.filter (·.lastResort)).map (·.entry)) := by
  induction entries generalizing rows with
  | nil => rfl
  | cons p entries ih =>
    rw [List.foldl_cons]
    by_cases hp : p.lastResort = true
    · have hrest : ∀ q ∈ entries, q.lastResort = false := by
        simpa [hp, List.filter_cons, List.filter_eq_nil_iff] using hone
      have hnone : rows.filter (fun r => r.lastResort && decide ¬(r.mailboxId = mb ∧ r.lastResort = true)) =
          [] := by
        refine List.filter_eq_nil_iff.2 fun r hr => ?_
        simp [hrows r hr]
      rw [lastResort_foldl_insertPrekey_of_none hrest, insertPrekey, if_pos hp, List.filter_append,
        List.filter_filter, hnone]
      have hentry : (⟨p.id, true, p.blob⟩ : PrekeyEntry) = p := by rw [← hp]
      simp [hp, PrekeyRow.entry, hentry]
    · have hp : p.lastResort = false := by simpa using hp
      rw [ih (by simpa [hp] using hone) (mailboxId_insertPrekey hrows now p)]
      simp [hp, insertPrekey, List.filter_append]

theorem takesOf_countTake (s : RelayStore) (t t' : Digest) (h h' : Int) :
    (s.countTake t h).takesOf t' h' = if t' = t ∧ h' = h then s.takesOf t' h' + 1 else s.takesOf t' h' := by
  have hkey : ((fun r : PrekeyTakesRow => decide (r.tokenHash = t' ∧ r.hour = h')) ∘ fun r =>
      if r.tokenHash = t ∧ r.hour = h then { r with count := r.count + 1 } else r) =
        fun r => decide (r.tokenHash = t' ∧ r.hour = h') := by
    funext r
    dsimp only [Function.comp_apply]
    split_ifs <;> rfl
  unfold countTake takesOf
  split_ifs with hany heq heq
  · obtain ⟨rfl, rfl⟩ := heq
    rw [List.find?_map, hkey]
    obtain ⟨r, hr⟩ := Option.isSome_iff_exists.1 ((List.find?_isSome.2 (List.any_eq_true.1 hany)))
    have hrow : r.tokenHash = t' ∧ r.hour = h' := by simpa using List.find?_some hr
    rw [hr, Option.map_some, if_pos hrow]
    rfl
  · rw [List.find?_map, hkey]
    cases hr : s.prekeyTakes.find? fun r => r.tokenHash = t' ∧ r.hour = h' with
    | none => rfl
    | some r =>
      have hrow : r.tokenHash = t' ∧ r.hour = h' := by simpa using List.find?_some hr
      simp [hrow, heq]
  · obtain ⟨rfl, rfl⟩ := heq
    have hnone : (s.prekeyTakes.find? fun r => r.tokenHash = t' ∧ r.hour = h') = none :=
      List.find?_eq_none.2 fun r hr hrow => hany (List.any_eq_true.2 ⟨r, hr, hrow⟩)
    rw [List.find?_append, hnone]
    simp
  · have hnew : ¬(t = t' ∧ h = h') := fun hh => heq ⟨hh.1.symm, hh.2.symm⟩
    simp [List.find?_append, hnew]

theorem takesOf_sweepPrekeyTakes (s : RelayStore) (t : Digest) {h : Int} (hh : now.tdiv 3600 ≤ h) :
    (s.sweepPrekeyTakes now).takesOf t h = s.takesOf t h := by
  unfold takesOf sweepPrekeyTakes
  rw [List.find?_filter]
  congr 3
  funext r
  by_cases hr : r.tokenHash = t ∧ r.hour = h
  · simpa [hr] using hh
  · simp [hr]

end RelayStore

/-! ## Rows that stand for a pool -/

/-- The rows of a mailbox, in the order of their row IDs, stand for a pool. -/
structure Pool.Rows (rows : List PrekeyRow) (generation : Option Bytes) (clock : Time) (p : Pool) :
    Prop where
  queue : (rows.filter (!·.lastResort)).map (·.entry) = p.queue.toList
  lastResort : (rows.filter (·.lastResort)).map (·.entry) = p.lastResort.toList
  generation : generation = p.generation
  ids : (rows.map (·.id)).Nodup
  byTime : rows.Pairwise (·.createdAt ≤ ·.createdAt)
  past : ∀ r ∈ rows, r.createdAt ≤ clock

namespace Pool.Rows

variable {rows : List PrekeyRow} {g : Option Bytes} {clock now : Time} {p : Pool}

theorem mono (h : Rows rows g clock p) (hnow : clock ≤ now) : Rows rows g now p :=
  ⟨h.queue, h.lastResort, h.generation, h.ids, h.byTime, fun r hr => (h.past r hr).trans hnow⟩

theorem base (h : Rows rows g clock p) (replace : Bool) :
    Rows (if replace then [] else rows) g clock (p.base replace) := by
  cases replace with
  | false => exact h
  | true => exact ⟨rfl, rfl, h.generation, by simp, by simp, by simp⟩

theorem has (h : Rows rows g clock p) (id : Bytes) : p.has id = rows.any (·.id = id) := by
  have hqueue : p.queue.toList.any (·.id = id) = (rows.filter (!·.lastResort)).any (·.id = id) := by
    rw [← h.queue, List.any_map]
    rfl
  have hlast : p.lastResort.any (·.id = id) = (rows.filter (·.lastResort)).any (·.id = id) := by
    have htoList : p.lastResort.any (·.id = id) = p.lastResort.toList.any (·.id = id) := by
      cases p.lastResort <;> simp
    rw [htoList, ← h.lastResort, List.any_map]
    rfl
  rw [Pool.has, hqueue, hlast, Bool.eq_iff_iff]
  simp only [Bool.or_eq_true, List.any_eq_true, List.mem_filter, decide_eq_true_eq]
  constructor
  · rintro (⟨r, hr, hid⟩ | ⟨r, hr, hid⟩) <;> exact ⟨r, hr.1, hid⟩
  · rintro ⟨r, hr, hid⟩
    by_cases hlr : r.lastResort = true
    · exact .inr ⟨r, ⟨hr, hlr⟩, hid⟩
    · exact .inl ⟨r, ⟨hr, by simpa using hlr⟩, hid⟩

theorem length_queue (h : Rows rows g clock p) :
    p.queue.toList.length = (rows.filter (!·.lastResort)).length := by
  rw [← h.queue, List.length_map]

theorem find_lastResort (h : Rows rows g clock p) :
    (rows.find? (·.lastResort)).map (·.entry) = p.lastResort := by
  rw [← List.head?_filter, ← List.head?_map, h.lastResort]
  cases p.lastResort <;> rfl

theorem put {mb : Bytes} (h : Rows rows g clock p) (hnow : clock ≤ now)
    (hrows : ∀ r ∈ rows, r.mailboxId = mb) {entries : List PrekeyEntry}
    (hids : (entries.map (·.id)).Nodup) (hone : (entries.filter (·.lastResort)).length ≤ 1)
    (hfresh : ∀ e ∈ entries, ∀ r ∈ rows, r.id ≠ e.id) (generation : Bytes) :
    Rows (entries.foldl (RelayStore.insertPrekey mb now) rows) (some generation) now
      { p with
        queue := p.queue.put (entries.filter (!·.lastResort))
        lastResort := (entries.find? (·.lastResort)).or p.lastResort
        generation := some generation } := by
  have hsub : (entries.foldl (RelayStore.insertPrekey mb now) rows).Sublist
      (rows ++ entries.map (RelayStore.entryRow mb now)) :=
    RelayStore.foldl_insertPrekey_sublist entries rows now
  refine ⟨?_, ?_, rfl, ?_, ?_, fun r hr => ?_⟩
  · rw [RelayStore.oneTime_foldl_insertPrekey, List.map_append, h.queue, List.map_map,
      Fifo.Queue.toList_put]
    exact congrArg _ (List.map_id _)
  · rw [RelayStore.lastResort_foldl_insertPrekey hone hrows, h.lastResort]
    cases entries.find? (·.lastResort) <;> rfl
  · refine List.Nodup.sublist (hsub.map _) ?_
    rw [List.map_append, List.map_map, List.nodup_append]
    refine ⟨h.ids, hids, fun a ha b hb hab => ?_⟩
    obtain ⟨r, hr, rfl⟩ := List.mem_map.1 ha
    obtain ⟨e, he, rfl⟩ := List.mem_map.1 hb
    exact hfresh e he r hr hab
  · refine List.Pairwise.sublist hsub (List.pairwise_append.2 ⟨h.byTime, ?_, fun r hr r' hr' => ?_⟩)
    · exact List.pairwise_map.2 (List.pairwise_of_forall fun _ _ => le_refl now)
    · obtain ⟨e, -, rfl⟩ := List.mem_map.1 hr'
      exact (h.past r hr).trans hnow
  · rcases List.mem_append.1 (hsub.subset hr) with hr | hr
    · exact (h.past r hr).trans hnow
    · obtain ⟨e, -, rfl⟩ := List.mem_map.1 hr
      exact le_refl now

/-- The row that goes next is the first one-time row: no row was inserted before an older one. -/
theorem oldest (h : Rows rows g clock p) :
    ((rows.filter (!·.lastResort)).insertionSort (·.createdAt ≤ ·.createdAt)).head? =
      (rows.filter (!·.lastResort)).head? := by
  rw [(h.byTime.sublist List.filter_sublist).insertionSort_eq]

theorem head_queue (h : Rows rows g clock p) :
    p.queue.waiting.head?.map (·.2) = (rows.filter (!·.lastResort)).head?.map (·.entry) := by
  rw [← List.head?_map, ← List.head?_map, h.queue]
  rfl

/-- Without the row that goes next the rows stand for the rest of the queue. -/
theorem take {row : PrekeyRow} (h : Rows rows g clock p)
    (hrow : (rows.filter (!·.lastResort)).head? = some row) (handed : List ℕ) :
    Rows (rows.filter (·.id ≠ row.id)) g clock { p with queue := p.queue.rest, handed := handed } := by
  have hcons : rows.filter (!·.lastResort) = row :: (rows.filter (!·.lastResort)).tail :=
    List.eq_cons_of_mem_head? hrow
  have hmem : row ∈ rows.filter (!·.lastResort) := List.mem_of_head? hrow
  have hone : row.lastResort = false := by simpa using (List.mem_filter.1 hmem).2
  have hinj : ∀ r ∈ rows, r.id = row.id → r = row := fun r hr hid =>
    List.inj_on_of_nodup_map h.ids hr (List.mem_filter.1 hmem).1 hid
  have hnodup : ((rows.filter (!·.lastResort)).map (·.id)).Nodup := h.ids.sublist (List.filter_sublist.map _)
  refine ⟨?_, ?_, h.generation, h.ids.sublist (List.filter_sublist.map _),
    h.byTime.sublist List.filter_sublist, fun r hr => h.past r (List.mem_filter.1 hr).1⟩
  · rw [List.filter_comm, Fifo.Queue.toList_rest, ← h.queue, ← List.map_tail]
    congr 1
    rw [hcons] at hnodup ⊢
    have hrest : ∀ r ∈ (rows.filter (!·.lastResort)).tail, r.id ≠ row.id := by
      intro r hr hid
      exact (List.nodup_cons.1 hnodup).1 (List.mem_map.2 ⟨r, hr, hid⟩)
    rw [List.filter_cons_of_neg (by simp), List.tail_cons]
    exact List.filter_eq_self.2 fun r hr => by simpa using hrest r hr
  · rw [List.filter_comm, ← h.lastResort]
    congr 1
    refine List.filter_eq_self.2 fun r hr => ?_
    obtain ⟨hr, hlast⟩ := List.mem_filter.1 hr
    have hne : r.id ≠ row.id := by
      intro hid
      rw [hinj r hr hid, hone] at hlast
      exact Bool.false_ne_true hlast
    simpa using hne

end Pool.Rows

/-! ## The store gives the answers it should -/

namespace RelayStore

variable {s : RelayStore} {mb mb' : Bytes}

theorem filter_keptPrekeys_of_ne (hne : mb' ≠ mb) (replace : Bool) :
    (s.keptPrekeys mb replace).filter (·.mailboxId = mb') = s.prekeysOf mb' := by
  unfold keptPrekeys
  split_ifs
  · rw [List.filter_filter]
    refine List.filter_congr fun r _ => ?_
    by_cases hr : r.mailboxId = mb' <;> simp [hr, hne]
  · rfl

theorem generationOf_setGeneration_of_ne (hne : mb' ≠ mb) (g : Bytes) :
    (s.setGeneration mb g).generationOf mb' = s.generationOf mb' := by
  unfold setGeneration generationOf
  split_ifs
  · rw [Rows.lookup_map (fun r => by split_ifs <;> rfl)]
    cases hr : Rows.lookup PrekeyPoolRow.mailboxId mb' s.prekeyPools with
    | none => rfl
    | some r =>
      have hmb : r.mailboxId ≠ mb := (Rows.lookup_eq_some hr).2 ▸ hne
      simp [hmb]
  · simp [Rows.lookup, List.find?_append, Ne.symm hne]

theorem takesOf_setGeneration (g : Bytes) (t : Digest) (h : Int) :
    (s.setGeneration mb g).takesOf t h = s.takesOf t h := by
  unfold setGeneration
  split_ifs <;> rfl

end RelayStore

/-- The tables stand for the pools. Of the allowances only those of this hour and later are kept. -/
structure Pools.Models (s : RelayStore) (clock : Time) (ps : Pools) : Prop where
  pool : ∀ mb, Pool.Rows (s.prekeysOf mb) (s.generationOf mb) clock (ps.pool mb)
  taken : ∀ t h, clock.tdiv 3600 ≤ h → s.takesOf t h = ps.taken t h

namespace Pools.Models

variable {s s' : RelayStore} {clock now : Time} {ps : Pools} {limits : RelayLimits} {mb : Bytes}

theorem mono (h : ps.Models s clock) (hnow : clock ≤ now) : ps.Models s now :=
  ⟨fun mb => (h.pool mb).mono hnow, fun t hour hh =>
    h.taken t hour ((Int.tdiv_le_tdiv (by decide) hnow).trans hh)⟩

theorem setPool {p : Pool} (h : ps.Models s clock) (hnow : clock ≤ now)
    (hp : Pool.Rows (s'.prekeysOf mb) (s'.generationOf mb) now p)
    (hrows : ∀ mb', mb' ≠ mb → s'.prekeysOf mb' = s.prekeysOf mb')
    (hgen : ∀ mb', mb' ≠ mb → s'.generationOf mb' = s.generationOf mb')
    (htakes : s'.takesOf = s.takesOf) : (ps.setPool mb p).Models s' now := by
  refine ⟨fun mb' => ?_, fun t hour hh => ?_⟩
  · by_cases hmb : mb' = mb
    · subst hmb
      rw [setPool_pool_self]
      exact hp
    · rw [setPool_pool_of_ne hmb, hrows mb' hmb, hgen mb' hmb]
      exact (h.pool mb').mono hnow
  · rw [htakes]
    exact (h.mono hnow).taken t hour hh

/-- The pool and the store take the same put, or refuse it for the same reason. -/
theorem put_pool (h : ps.Models s clock) (hnow : clock ≤ now) {m : PrekeyPut} (hm : m.wellFormed = true)
    (hmb : (s.accessKey mb).isNone = false) (maxOneTime : ℕ) :
    let (r, s') := s.putPrekeys mb m.replace m.generation m.prekeys now maxOneTime
    let (r', p') := (ps.pool mb).put m maxOneTime
    r = r' ∧ (ps.setPool mb p').Models s' now := by
  have hbase := (h.pool mb).base m.replace
  have hrefused : (ps.setPool mb (ps.pool mb)).Models s now := by
    rw [setPool_pool]
    exact h.mono hnow
  have hdup : (m.prekeys.any fun e => (if m.replace then [] else s.prekeysOf mb).any (·.id = e.id)) =
      m.prekeys.any fun e => ((ps.pool mb).base m.replace).has e.id :=
    congrArg _ (funext fun e => (hbase.has e.id).symm)
  unfold RelayStore.putPrekeys Pool.put
  rw [if_neg (by simp [hmb])]
  dsimp only
  rw [RelayStore.filter_keptPrekeys, ← hbase.length_queue, hdup, (h.pool mb).generation]
  split_ifs with hgen hmany hdup'
  · exact ⟨rfl, hrefused⟩
  · exact ⟨rfl, hrefused⟩
  · exact ⟨rfl, hrefused⟩
  have hwf : (m.prekeys.map (·.id)).Nodup ∧ (m.prekeys.filter (·.lastResort)).length ≤ 1 := by
    simp only [PrekeyPut.wellFormed, decide_eq_true_eq] at hm
    exact hm.2
  refine ⟨rfl, h.setPool hnow ?_ (fun mb' hne => ?_) (fun mb' hne => ?_) ?_⟩
  · rw [RelayStore.prekeysOf_put]
    refine (congrArg (Pool.Rows _ · now _) ?_).mpr (hbase.put hnow (fun r hr => ?_) hwf.1 hwf.2 ?_ m.generation)
    · exact RelayStore.generationOf_setGeneration s mb m.generation
    · split_ifs at hr
      · simp at hr
      · simpa using (List.mem_filter.1 hr).2
    · intro e he r hr hid
      rw [← hdup] at hdup'
      simp only [List.any_eq_true, decide_eq_true_eq] at hdup'
      exact hdup' ⟨e, he, r, hr, hid⟩
  · show List.filter _ (m.prekeys.foldl (RelayStore.insertPrekey mb now) (s.keptPrekeys mb m.replace)) = _
    rw [RelayStore.filter_foldl_insertPrekey_of_ne hne, RelayStore.filter_keptPrekeys_of_ne hne]
  · exact RelayStore.generationOf_setGeneration_of_ne hne m.generation
  · funext t hour
    exact RelayStore.takesOf_setGeneration m.generation t hour

theorem countTake (h : ps.Models s clock) (t : Digest) (hour : Int) :
    (ps.countTake t hour).Models (s.countTake t hour) clock := by
  obtain ⟨hkeys, hpools⟩ := RelayStore.countTake_frame (s := s) t hour
  refine ⟨fun mb => ?_, fun t' hour' hh => ?_⟩
  · rw [RelayStore.prekeysOf, hkeys, RelayStore.generationOf, hpools]
    exact h.pool mb
  · rw [RelayStore.takesOf_countTake, h.taken t' hour' hh]
    rfl

theorem fallback (h : ps.Models s clock) (mb : Bytes) :
    (s.lastResortOf mb = none ∧ (ps.pool mb).lastResort = none) ∨
      ∃ row, s.lastResortOf mb = some row ∧ row.lastResort = true ∧
        (ps.pool mb).lastResort = some row.entry := by
  have hlast := (h.pool mb).find_lastResort
  cases hrow : (s.prekeysOf mb).find? (·.lastResort) with
  | none => exact .inl ⟨hrow, by rw [← hlast, hrow]; rfl⟩
  | some row =>
    exact .inr ⟨row, hrow, (RelayStore.lastResortOf_eq_some hrow).2, by rw [← hlast, hrow]; rfl⟩

/-- The row that goes next is deleted, and the head of the queue with it. -/
theorem handOut {row : PrekeyRow} (h : ps.Models s clock)
    (hrow : ((s.prekeysOf mb).filter (!·.lastResort)).head? = some row) (handed : List ℕ) :
    (ps.setPool mb { ps.pool mb with queue := (ps.pool mb).queue.rest, handed := handed }).Models
      { s with prekeys := s.prekeys.filter fun r => ¬(r.mailboxId = mb ∧ r.id = row.id) } clock := by
  have hfilter : RelayStore.prekeysOf
      { s with prekeys := s.prekeys.filter fun r => ¬(r.mailboxId = mb ∧ r.id = row.id) } mb =
        (s.prekeysOf mb).filter (·.id ≠ row.id) := by
    simp only [RelayStore.prekeysOf, List.filter_filter]
    refine List.filter_congr fun r _ => ?_
    by_cases hr : r.mailboxId = mb <;> simp [hr]
  refine h.setPool (le_refl clock) ?_ (fun mb' hne => ?_) (fun mb' hne => rfl) rfl
  · rw [hfilter]
    exact (h.pool mb).take hrow handed
  · simp only [RelayStore.prekeysOf, List.filter_filter]
    refine List.filter_congr fun r _ => ?_
    by_cases hr : r.mailboxId = mb' <;> simp [hr, hne]

theorem take_pool (h : ps.Models s clock) (hnow : clock ≤ now) (mb : Bytes) (t : Digest) (perHour : ℕ) :
    let (r, s') := s.takePrekey mb t now perHour
    let (r', ps') := ps.take mb t (now.tdiv 3600) perHour
    r.handout = r' ∧ ps'.Models s' now := by
  have hlater := h.mono hnow
  unfold RelayStore.takePrekey Pools.take
  dsimp only
  rw [hlater.taken t _ (le_refl _)]
  by_cases hover : ps.taken t (now.tdiv 3600) ≥ perHour
  · rw [if_pos hover, if_pos hover]
    rcases hlater.fallback mb with ⟨hrow, hlast⟩ | ⟨row, hrow, htrue, hlast⟩
    · rw [hrow]
      exact ⟨by simp [RelayStore.PrekeyTakeResult.handout, Pool.fallback, hlast], hlater⟩
    · rw [hrow]
      exact ⟨by simp [RelayStore.PrekeyTakeResult.handout, Pool.fallback, hlast, htrue], hlater⟩
  · rw [if_neg hover, if_neg hover]
    have hcounted := hlater.countTake t (now.tdiv 3600)
    have hrows := hcounted.pool mb
    have hhead := hrows.head_queue
    rw [RelayStore.oldestOneTime, hrows.oldest]
    cases hrow : (((s.countTake t (now.tdiv 3600)).prekeysOf mb).filter (!·.lastResort)).head? with
    | none =>
      rw [hrow] at hhead
      rw [Option.map_eq_none_iff.1 hhead]
      dsimp only
      rcases hcounted.fallback mb with ⟨hlr, hlast⟩ | ⟨row, hlr, htrue, hlast⟩
      · rw [hlr]
        exact ⟨by simp [RelayStore.PrekeyTakeResult.handout, Pool.fallback, hlast], hcounted⟩
      · rw [hlr]
        exact ⟨by simp [RelayStore.PrekeyTakeResult.handout, Pool.fallback, hlast, htrue], hcounted⟩
    | some row =>
      rw [hrow] at hhead
      obtain ⟨⟨n, e⟩, hwaiting, he⟩ := Option.map_eq_some_iff.1 hhead
      have hone : row.lastResort = false := by
        simpa using (List.mem_filter.1 (List.mem_of_head? hrow)).2
      rw [hwaiting]
      dsimp only at he ⊢
      refine ⟨by simp [RelayStore.PrekeyTakeResult.handout, hone, he], ?_⟩
      have hnext := hcounted.handOut hrow (((ps.countTake t (now.tdiv 3600)).pool mb).handed ++ [n])
      exact ⟨hnext.pool, hnext.taken⟩

theorem sweep (h : ps.Models s clock) (hnow : clock ≤ now) : ps.Models (s.sweepPrekeyTakes now) now := by
  have hlater := h.mono hnow
  refine ⟨hlater.pool, fun t hour hh => ?_⟩
  rw [RelayStore.takesOf_sweepPrekeyTakes s t hh]
  exact hlater.taken t hour hh

theorem status (h : ps.Models s clock) (mb : Bytes) : s.prekeyStatus mb = (ps.pool mb).status := by
  have hrows := h.pool mb
  unfold RelayStore.prekeyStatus Pool.status
  rw [hrows.length_queue, ← hrows.find_lastResort, hrows.generation, Option.isSome_map]
  rfl

end Pools.Models

def RelayStore.known (s : RelayStore) (mb : Bytes) : Bool := (s.accessKey mb).isSome

/-- Every request gets the answer it should, and the tables go on standing for the pools. -/
theorem PrekeyOp.run_agrees {s : RelayStore} {clock now : Time} {ps : Pools} (limits : RelayLimits)
    (h : ps.Models s clock) (hnow : clock ≤ now) (op : PrekeyOp) :
    (op.run limits now s).1 = (ps.run limits s.known now op).1 ∧
      (ps.run limits s.known now op).2.Models (op.run limits now s).2 now := by
  cases op with
  | put mb m hm =>
    by_cases hmb : (s.accessKey mb).isNone = true
    · have hunknown : s.known mb = false := by simpa [RelayStore.known] using hmb
      simp only [run, Pools.run, RelayStore.putPrekeys, if_pos hmb, hunknown]
      exact ⟨rfl, h.mono hnow⟩
    · have hkey : (s.accessKey mb).isNone = false := Bool.eq_false_of_not_eq_true hmb
      have hknown : s.known mb = true := by simpa [RelayStore.known, Option.isSome_iff_ne_none] using hkey
      obtain ⟨hr, hmodels⟩ := h.put_pool hnow hm hkey limits.maxPrekeys
      simp only [run, Pools.run, hknown, if_true]
      exact ⟨congrArg PrekeyReply.put hr, hmodels⟩
  | take mb t =>
    obtain ⟨hr, hmodels⟩ := h.take_pool hnow mb t limits.prekeyTakesPerHour
    exact ⟨congrArg PrekeyReply.take hr, hmodels⟩
  | status mb => exact ⟨congrArg PrekeyReply.status (h.status mb), h.mono hnow⟩
  | sweep => exact ⟨rfl, h.sweep hnow⟩

/-! ## What the pools keep to -/

/-- One-time prekeys go out in the order they were put, no pool is over its limit and no token over its
allowance. -/
structure Pools.Fair (limits : RelayLimits) (ps : Pools) : Prop where
  inOrder : ∀ mb, (ps.pool mb).queue.InOrder (ps.pool mb).handed
  size : ∀ mb, (ps.pool mb).queue.toList.length ≤ limits.maxPrekeys
  allowed : ∀ t h, ps.taken t h ≤ limits.prekeyTakesPerHour
  counted : ∀ t h, ps.got.count (t, h) ≤ ps.taken t h

namespace Pools.Fair

variable {limits : RelayLimits} {ps : Pools} {mb : Bytes}

theorem empty (limits : RelayLimits) : Fair limits {} :=
  ⟨fun _ => Fifo.Queue.inOrder_empty, fun _ => Nat.zero_le _, fun _ _ => Nat.zero_le _, fun _ _ => by simp⟩

theorem setPool {p : Pool} (h : ps.Fair limits) (horder : p.queue.InOrder p.handed)
    (hsize : p.queue.toList.length ≤ limits.maxPrekeys) : (ps.setPool mb p).Fair limits := by
  refine ⟨fun mb' => ?_, fun mb' => ?_, h.allowed, h.counted⟩
  · by_cases hmb : mb' = mb
    · subst hmb
      simpa using horder
    · simpa [hmb] using h.inOrder mb'
  · by_cases hmb : mb' = mb
    · subst hmb
      simpa using hsize
    · simpa [hmb] using h.size mb'

theorem put (h : ps.Fair limits) (m : PrekeyPut) :
    (ps.setPool mb ((ps.pool mb).put m limits.maxPrekeys).2).Fair limits := by
  have hbase : ((ps.pool mb).base m.replace).queue.InOrder (ps.pool mb).handed := by
    unfold Pool.base
    split_ifs
    · exact (h.inOrder mb).clear
    · exact h.inOrder mb
  have hhanded : ((ps.pool mb).base m.replace).handed = (ps.pool mb).handed := by
    unfold Pool.base
    split_ifs <;> rfl
  unfold Pool.put
  dsimp only
  split_ifs with hgen hmany hdup
  · rwa [setPool_pool]
  · rwa [setPool_pool]
  · rwa [setPool_pool]
  · refine h.setPool ?_ ?_
    · exact hhanded ▸ hbase.put _
    · rw [Fifo.Queue.toList_put, List.length_append]
      omega

theorem take (h : ps.Fair limits) (mb : Bytes) (t : Digest) (hour : Int) :
    (ps.take mb t hour limits.prekeyTakesPerHour).2.Fair limits := by
  unfold Pools.take
  split_ifs with hover
  · exact h
  have hallowed : ∀ t' h', (ps.countTake t hour).taken t' h' ≤ limits.prekeyTakesPerHour := by
    intro t' h'
    have hold := h.allowed t' h'
    show (if t' = t ∧ h' = hour then _ else _) ≤ _
    split_ifs with heq
    · obtain ⟨rfl, rfl⟩ := heq
      omega
    · exact hold
  have hmore : ∀ t' h', ps.taken t' h' ≤ (ps.countTake t hour).taken t' h' := by
    intro t' h'
    show _ ≤ if t' = t ∧ h' = hour then _ else _
    split_ifs <;> omega
  dsimp only
  split
  · rename_i n e hhead
    have hpool : (ps.countTake t hour).Fair limits :=
      ⟨h.inOrder, h.size, hallowed, fun t' h' => (h.counted t' h').trans (hmore t' h')⟩
    have hsize : (ps.pool mb).queue.rest.toList.length ≤ limits.maxPrekeys := by
      have := h.size mb
      rw [Fifo.Queue.toList_rest, List.length_tail]
      omega
    have hrest : ((ps.countTake t hour).setPool mb { ps.pool mb with
        queue := (ps.pool mb).queue.rest, handed := (ps.pool mb).handed ++ [n] }).Fair limits :=
      hpool.setPool ((h.inOrder mb).take hhead) hsize
    refine ⟨hrest.inOrder, hrest.size, hallowed, fun t' h' => ?_⟩
    have hcounted := h.counted t' h'
    rw [List.count_append, List.count_singleton]
    show _ ≤ if t' = t ∧ h' = hour then _ else _
    by_cases heq : t' = t ∧ h' = hour
    · rw [if_pos heq]
      have : ((t, hour) == (t', h')) = true := by simp [heq]
      rw [this, if_pos rfl]
      exact Nat.add_le_add_right hcounted 1
    · have : ((t, hour) == (t', h')) = false := by
        simp only [beq_eq_false_iff_ne, ne_eq, Prod.mk.injEq]
        exact fun hh => heq ⟨hh.1.symm, hh.2.symm⟩
      rw [if_neg heq, this, if_neg Bool.false_ne_true]
      exact hcounted
  · exact ⟨h.inOrder, h.size, hallowed, fun t' h' => (h.counted t' h').trans (hmore t' h')⟩

theorem run (h : ps.Fair limits) (known : Bytes → Bool) (now : Time) (op : PrekeyOp) :
    (ps.run limits known now op).2.Fair limits := by
  cases op with
  | put mb m hm =>
    unfold Pools.run
    dsimp only
    split_ifs
    · exact h.put m
    · exact h
  | take mb t => exact h.take mb t _
  | status | sweep => exact h

end Pools.Fair

/-! ## Runs -/

/-- The store, what it stands for, and the clock. -/
structure PrekeyService where
  store : RelayStore
  pools : Pools := {}
  clock : Time

namespace PrekeyService

/-- No prekeys yet; the mailboxes and everything else are whatever they are. -/
structure Init (w : PrekeyService) : Prop where
  prekeys : w.store.prekeys = []
  prekeyPools : w.store.prekeyPools = []
  prekeyTakes : w.store.prekeyTakes = []
  pools : w.pools = {}

def next (limits : RelayLimits) (w : PrekeyService) (e : PrekeyOp × Time) : PrekeyService :=
  ⟨(e.1.run limits e.2 w.store).2, (w.pools.run limits w.store.known e.2 e.1).2, e.2⟩

/-- A request at a time that is not before the last one. -/
def Step (limits : RelayLimits) (w : PrekeyService) (e : PrekeyOp × Time) (w' : PrekeyService) : Prop :=
  w.clock ≤ e.2 ∧ w' = w.next limits e

variable {limits : RelayLimits} {w w' : PrekeyService}

theorem Init.models (h : w.Init) : w.pools.Models w.store w.clock := by
  rw [h.pools]
  refine ⟨fun mb => ?_, fun t hour _ => by simp [RelayStore.takesOf, h.prekeyTakes]⟩
  rw [RelayStore.prekeysOf, h.prekeys, RelayStore.generationOf, h.prekeyPools]
  exact ⟨rfl, rfl, rfl, .nil, .nil, by simp⟩

theorem models_and_fair (h : Reach.Reachable Init (Step limits) w) :
    w.pools.Models w.store w.clock ∧ w.pools.Fair limits := by
  refine h.invariant (P := fun w => w.pools.Models w.store w.clock ∧ w.pools.Fair limits)
    (fun w hinit => ⟨hinit.models, hinit.pools ▸ Pools.Fair.empty limits⟩) ?_
  rintro w e w' ⟨hmodels, hfair⟩ ⟨hnow, rfl⟩
  exact ⟨(PrekeyOp.run_agrees limits hmodels hnow e.1).2, hfair.run w.store.known e.2 e.1⟩

theorem toList_head?_of_length_le_one : ∀ {l : List PrekeyEntry}, l.length ≤ 1 → l.head?.toList = l
  | [], _ => rfl
  | [_], _ => rfl
  | _ :: _ :: _, h => absurd h (by simp)

/-- The store behaves as a queue and a last-resort place for each mailbox. It answers as the pools do; the
one-time prekeys are handed out in order; the last-resort prekey goes out only when the queue is empty or
the token is over its allowance; and no token gets more one-time prekeys in an hour than it is allowed. -/
theorem prekeys_are_a_queue (limits : RelayLimits) {w : PrekeyService}
    (h : Reach.Reachable Init (Step limits) w) :
    (∀ op now, w.clock ≤ now →
      (PrekeyOp.run limits now w.store op).1 = (w.pools.run limits w.store.known now op).1) ∧
    (∀ mb m hm now, ((PrekeyOp.put mb m hm).run limits now w.store).1 ≠ .put .ok →
      ((PrekeyOp.put mb m hm).run limits now w.store).2 = w.store) ∧
    (∀ mb m hm now, w.clock ≤ now → m.replace = true →
      ((PrekeyOp.put mb m hm).run limits now w.store).1 = .put .ok →
      let rows := ((PrekeyOp.put mb m hm).run limits now w.store).2.prekeysOf mb
      (rows.filter (!·.lastResort)).map (·.entry) = m.prekeys.filter (!·.lastResort) ∧
        (rows.filter (·.lastResort)).map (·.entry) = m.prekeys.filter (·.lastResort)) ∧
    (∀ mb, (w.pools.pool mb).handed.Pairwise (· < ·)) ∧
    (∀ mb t now e, w.clock ≤ now →
      ((PrekeyOp.take mb t).run limits now w.store).1 = .take (.lastResort e) →
      (w.pools.pool mb).queue.toList = [] ∨
        limits.prekeyTakesPerHour ≤ w.pools.taken t (now.tdiv 3600)) ∧
    ∀ t hour, w.pools.got.count (t, hour) ≤ limits.prekeyTakesPerHour := by
  obtain ⟨hmodels, hfair⟩ := models_and_fair h
  refine ⟨fun op now hnow => (op.run_agrees limits hmodels hnow).1, fun mb m hm now hrefused => ?_,
    fun mb m hm now hnow hreplace hok => ?_, fun mb => (hfair.inOrder mb).taken_increasing,
    fun mb t now e hnow hlast => ?_, fun t hour => (hfair.counted t hour).trans (hfair.allowed t hour)⟩
  · rcases w.store.putPrekeys_cases mb m.replace m.generation m.prekeys now limits.maxPrekeys with
      ⟨hok, -⟩ | ⟨-, hsame⟩
    · exact absurd (congrArg PrekeyReply.put hok) hrefused
    · exact hsame
  · obtain ⟨hreply, hafter⟩ := (PrekeyOp.put mb m hm).run_agrees limits hmodels hnow
    have hrows := hafter.pool mb
    rw [hok] at hreply
    simp only [Pools.run] at hreply hrows
    have hknown : w.store.known mb = true := by
      by_contra hunknown
      rw [if_neg hunknown] at hreply
      exact nomatch hreply
    rw [if_pos hknown] at hreply hrows
    obtain ⟨hqueue, hlast⟩ := Pool.put_of_replace hreplace (PrekeyReply.put.inj hreply).symm
    rw [Pools.setPool_pool_self] at hrows
    refine ⟨hrows.queue.trans hqueue, hrows.lastResort.trans ?_⟩
    simp only [PrekeyPut.wellFormed, decide_eq_true_eq] at hm
    rw [hlast, ← List.head?_filter]
    exact toList_head?_of_length_le_one hm.2.2
  · rw [((PrekeyOp.take mb t).run_agrees limits hmodels hnow).1] at hlast
    exact Pools.take_eq_lastResort (PrekeyReply.take.inj hlast)

def sampleLimits : RelayLimits := { prekeyTakesPerHour := 1 }

def sampleToken : Digest := ⟨List.replicate 32 5, rfl⟩

/-- Two one-time prekeys and a last-resort one. -/
def samplePut : PrekeyPut := ⟨true, [7], [⟨[1], false, [10]⟩, ⟨[2], false, [20]⟩, ⟨[3], true, [30]⟩]⟩

def sampleStart : PrekeyService := { store := { mailboxes := [{ id := [1], accessPublicKey := [] }] }, clock := 0 }

def sampleService : PrekeyService :=
  (sampleStart.next sampleLimits (.put [1] samplePut (by decide), 5)).next sampleLimits
    (.take [1] sampleToken, 10)

theorem sampleService_reachable : Reach.Reachable Init (Step sampleLimits) sampleService :=
  ((Reach.Reachable.start ⟨rfl, rfl, rfl, rfl⟩ : Reach.Reachable Init (Step sampleLimits) sampleStart).next
    ⟨by decide, rfl⟩).next ⟨by decide, rfl⟩

/-- The next take in that hour gets the last-resort prekey, though a one-time prekey waits. -/
theorem prekeys_are_a_queue_sample :
    (sampleService.pools.pool [1]).handed = [0] ∧ (sampleService.pools.pool [1]).queue.toList ≠ [] ∧
    ((PrekeyOp.take [1] sampleToken).run sampleLimits 20 sampleService.store).1 =
      .take (.lastResort ⟨[3], true, [30]⟩) ∧
    ((sampleService.pools.pool [1]).queue.toList = [] ∨
      sampleLimits.prekeyTakesPerHour ≤ sampleService.pools.taken sampleToken 0) :=
  ⟨by decide +kernel, by decide +kernel, by decide +kernel,
    (prekeys_are_a_queue sampleLimits sampleService_reachable).2.2.2.2.1 [1] sampleToken 20 ⟨[3], true, [30]⟩
      (by decide +kernel) (by decide +kernel)⟩

end PrekeyService

end PqSuite.Relay
