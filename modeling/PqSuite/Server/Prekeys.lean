import Mathlib.Data.List.Sort
import PqSuite.Protocol.Mailbox
import PqSuite.Server.Store

/-!
# Prekeys on the relay (`relay_store.cpp`)

Each mailbox has a pool of one-time prekeys and one last-resort prekey, under a generation its owner
chose. A take hands out the oldest one-time prekey and deletes it; the last-resort one stays.
-/

namespace PqSuite.Relay.RelayStore

inductive PrekeyPutResult where
  | ok
  | noSuchMailbox
  | wrongGeneration
  | tooMany
  | duplicate
  deriving DecidableEq

inductive PrekeyTakeResult where
  | ok (row : PrekeyRow)
  | rateLimited
  | empty
  deriving DecidableEq

def prekeysOf (s : RelayStore) (mailboxId : Bytes) : List PrekeyRow :=
  s.prekeys.filter (·.mailboxId = mailboxId)

def generationOf (s : RelayStore) (mailboxId : Bytes) : Option Bytes :=
  (Rows.lookup PrekeyPoolRow.mailboxId mailboxId s.prekeyPools).map (·.generation)

def setGeneration (s : RelayStore) (mailboxId generation : Bytes) : RelayStore :=
  if (s.generationOf mailboxId).isSome then
    { s with prekeyPools := s.prekeyPools.map fun r =>
        if r.mailboxId = mailboxId then { r with generation := generation } else r }
  else { s with prekeyPools := s.prekeyPools ++ [⟨mailboxId, generation⟩] }

/-- One prekey is inserted; a last-resort one takes the place of the one before. -/
def insertPrekey (mailboxId : Bytes) (now : Time) (rows : List PrekeyRow) (p : PrekeyEntry) :
    List PrekeyRow :=
  (if p.lastResort then rows.filter fun r => ¬(r.mailboxId = mailboxId ∧ r.lastResort = true)
    else rows) ++ [⟨mailboxId, p.id, p.blob, p.lastResort, now⟩]

/-- A put that replaces the pool starts from the other mailboxes' prekeys. -/
def keptPrekeys (s : RelayStore) (mailboxId : Bytes) (replace : Bool) : List PrekeyRow :=
  if replace then s.prekeys.filter (·.mailboxId ≠ mailboxId) else s.prekeys

def putPrekeys (s : RelayStore) (mailboxId : Bytes) (replace : Bool) (generation : Bytes)
    (prekeys : List PrekeyEntry) (now : Time) (maxOneTime : Nat) : PrekeyPutResult × RelayStore :=
  if (s.accessKey mailboxId).isNone then (.noSuchMailbox, s)
  else if replace = false ∧ (s.generationOf mailboxId).any (· ≠ generation) then
    (.wrongGeneration, s)
  else
    let kept := s.keptPrekeys mailboxId replace
    let pool := kept.filter (·.mailboxId = mailboxId)
    if (pool.filter (!·.lastResort)).length + (prekeys.filter (!·.lastResort)).length >
        maxOneTime then (.tooMany, s)
    else if prekeys.any fun p => pool.any (·.id = p.id) then (.duplicate, s)
    else
      (.ok, { s.setGeneration mailboxId generation with
        prekeys := prekeys.foldl (insertPrekey mailboxId now) kept })

def takesOf (s : RelayStore) (tokenHash : Digest) (hour : Int) : Nat :=
  ((s.prekeyTakes.find? fun r => r.tokenHash = tokenHash ∧ r.hour = hour).map (·.count)).getD 0

def countTake (s : RelayStore) (tokenHash : Digest) (hour : Int) : RelayStore :=
  if s.prekeyTakes.any fun r => r.tokenHash = tokenHash ∧ r.hour = hour then
    { s with prekeyTakes := s.prekeyTakes.map fun r =>
        if r.tokenHash = tokenHash ∧ r.hour = hour then { r with count := r.count + 1 } else r }
  else { s with prekeyTakes := s.prekeyTakes ++ [⟨tokenHash, hour, 1⟩] }

def lastResortOf (s : RelayStore) (mailboxId : Bytes) : Option PrekeyRow :=
  (s.prekeysOf mailboxId).find? (·.lastResort)

/-- The one-time prekey that goes next: the oldest, and of those the first inserted. -/
def oldestOneTime (s : RelayStore) (mailboxId : Bytes) : Option PrekeyRow :=
  (((s.prekeysOf mailboxId).filter (!·.lastResort)).insertionSort
    (·.createdAt ≤ ·.createdAt)).head?

/-- Over its allowance a token gets the last-resort prekey only, so that it cannot drain the pool. -/
def takePrekey (s : RelayStore) (mailboxId : Bytes) (tokenHash : Digest) (now : Time)
    (perHour : Nat) : PrekeyTakeResult × RelayStore :=
  let hour := now.tdiv 3600
  if s.takesOf tokenHash hour ≥ perHour then
    match s.lastResortOf mailboxId with
    | none => (.rateLimited, s)
    | some row => (.ok row, s)
  else
    let s := s.countTake tokenHash hour
    match s.oldestOneTime mailboxId with
    | some row =>
      (.ok row, { s with
        prekeys := s.prekeys.filter fun r => ¬(r.mailboxId = mailboxId ∧ r.id = row.id) })
    | none =>
      match s.lastResortOf mailboxId with
      | some row => (.ok row, s)
      | none => (.empty, s)

def prekeyStatus (s : RelayStore) (mailboxId : Bytes) : PrekeyStatus where
  oneTime := UInt32.ofNat ((s.prekeysOf mailboxId).filter (!·.lastResort)).length
  lastResort := (s.lastResortOf mailboxId).isSome
  generation := (s.generationOf mailboxId).getD []

/-! ## What a take and a put do to one mailbox -/

variable {s s' : RelayStore} {mb : Bytes}

/-- A take hands out a one-time prekey, which is gone, or the last-resort one, or nothing. -/
inductive TakeEffect (mb : Bytes) (s : RelayStore) : PrekeyTakeResult → RelayStore → Prop
  | oneTime {row : PrekeyRow} {s' : RelayStore} (hmem : row ∈ s.prekeysOf mb)
      (hone : row.lastResort = false) (hgen : s'.generationOf mb = s.generationOf mb)
      (hpool : s'.prekeysOf mb = (s.prekeysOf mb).filter (·.id ≠ row.id)) :
      TakeEffect mb s (.ok row) s'
  | lastResort {row : PrekeyRow} {s' : RelayStore} (hmem : row ∈ s.prekeysOf mb)
      (hlast : row.lastResort = true) (hgen : s'.generationOf mb = s.generationOf mb)
      (hpool : s'.prekeysOf mb = s.prekeysOf mb) : TakeEffect mb s (.ok row) s'
  | nothing {r : PrekeyTakeResult} {s' : RelayStore} (hr : ∀ row, r ≠ .ok row)
      (hgen : s'.generationOf mb = s.generationOf mb)
      (hpool : s'.prekeysOf mb = s.prekeysOf mb) : TakeEffect mb s r s'

theorem countTake_frame (tokenHash : Digest) (hour : Int) :
    (s.countTake tokenHash hour).prekeys = s.prekeys ∧
      (s.countTake tokenHash hour).prekeyPools = s.prekeyPools := by
  unfold countTake
  split_ifs <;> exact ⟨rfl, rfl⟩

theorem lastResortOf_eq_some {row : PrekeyRow} (h : s.lastResortOf mb = some row) :
    row ∈ s.prekeysOf mb ∧ row.lastResort = true :=
  ⟨List.mem_of_find?_eq_some h, by simpa using List.find?_some h⟩

theorem oldestOneTime_eq_some {row : PrekeyRow} (h : s.oldestOneTime mb = some row) :
    row ∈ s.prekeysOf mb ∧ row.lastResort = false := by
  have hmem := List.mem_filter.1 ((List.perm_insertionSort _ _).mem_iff.1 (List.mem_of_head? h))
  exact ⟨hmem.1, by simpa using hmem.2⟩

theorem takeEffect_takePrekey (s : RelayStore) (mb : Bytes) (tokenHash : Digest) (now : Time)
    (perHour : Nat) :
    TakeEffect mb s (s.takePrekey mb tokenHash now perHour).1
      (s.takePrekey mb tokenHash now perHour).2 := by
  unfold takePrekey
  dsimp only
  split_ifs
  · split
    · exact .nothing (by simp) rfl rfl
    · rename_i row hrow
      obtain ⟨hmem, hlast⟩ := lastResortOf_eq_some hrow
      exact .lastResort hmem hlast rfl rfl
  · obtain ⟨hkeys, hpools⟩ := countTake_frame (s := s) tokenHash (now.tdiv 3600)
    set t := s.countTake tokenHash (now.tdiv 3600)
    have hpool : t.prekeysOf mb = s.prekeysOf mb := by simp [prekeysOf, hkeys]
    have hgen : t.generationOf mb = s.generationOf mb := by simp [generationOf, hpools]
    split
    · rename_i row hrow
      obtain ⟨hmem, hone⟩ := oldestOneTime_eq_some hrow
      refine .oneTime (hpool ▸ hmem) hone hgen ?_
      rw [← hpool]
      simp only [prekeysOf, List.filter_filter]
      refine List.filter_congr fun r _ => ?_
      by_cases hr : r.mailboxId = mb <;> simp [hr]
    · split
      · rename_i row hrow
        obtain ⟨hmem, hlast⟩ := lastResortOf_eq_some hrow
        exact .lastResort (hpool ▸ hmem) hlast hgen hpool
      · exact .nothing (by simp) hgen hpool

theorem generationOf_setGeneration (s : RelayStore) (mb g : Bytes) :
    (s.setGeneration mb g).generationOf mb = some g := by
  unfold setGeneration
  split_ifs with h
  · simp only [generationOf, Option.isSome_map, Rows.lookup, List.find?_map] at h ⊢
    have hkey : ((fun r : PrekeyPoolRow => decide (r.mailboxId = mb)) ∘ fun r =>
        if r.mailboxId = mb then { r with generation := g } else r) =
          fun r => decide (r.mailboxId = mb) := by
      funext r
      by_cases hr : r.mailboxId = mb <;> simp [hr]
    rw [hkey]
    obtain ⟨r, hr⟩ := Option.isSome_iff_exists.1 h
    have hmb : r.mailboxId = mb := by simpa using List.find?_some hr
    simp [hr, hmb]
  · have hnone : Rows.lookup PrekeyPoolRow.mailboxId mb s.prekeyPools = none := by
      simpa [generationOf] using h
    have hlast : Rows.lookup PrekeyPoolRow.mailboxId mb (s.prekeyPools ++ [⟨mb, g⟩]) =
        some ⟨mb, g⟩ := by
      unfold Rows.lookup at hnone ⊢
      rw [List.find?_append, hnone]
      simp
    simp [generationOf, hlast]

def entryRow (mb : Bytes) (now : Time) (p : PrekeyEntry) : PrekeyRow :=
  ⟨mb, p.id, p.blob, p.lastResort, now⟩

theorem filter_insertPrekey (rows : List PrekeyRow) (now : Time) (p : PrekeyEntry) :
    (insertPrekey mb now rows p).filter (·.mailboxId = mb) =
      insertPrekey mb now (rows.filter (·.mailboxId = mb)) p := by
  unfold insertPrekey
  split_ifs
  · rw [List.filter_append, List.filter_filter, List.filter_filter]
    congr 1
    · exact List.filter_congr fun r _ => Bool.and_comm _ _
    · simp
  · simp [List.filter_append]

theorem filter_foldl_insertPrekey (entries : List PrekeyEntry) (rows : List PrekeyRow)
    (now : Time) :
    (entries.foldl (insertPrekey mb now) rows).filter (·.mailboxId = mb) =
      entries.foldl (insertPrekey mb now) (rows.filter (·.mailboxId = mb)) := by
  induction entries generalizing rows with
  | nil => rfl
  | cons p entries ih => rw [List.foldl_cons, ih, filter_insertPrekey, List.foldl_cons]

theorem insertPrekey_sublist (rows : List PrekeyRow) (now : Time) (p : PrekeyEntry) :
    (insertPrekey mb now rows p).Sublist (rows ++ [entryRow mb now p]) := by
  unfold insertPrekey
  split_ifs
  · exact List.filter_sublist.append (List.Sublist.refl _)
  · exact List.Sublist.refl _

theorem mailboxId_insertPrekey {rows : List PrekeyRow} (hrows : ∀ r ∈ rows, r.mailboxId = mb) (now : Time)
    (p : PrekeyEntry) : ∀ r ∈ insertPrekey mb now rows p, r.mailboxId = mb := by
  intro r hr
  rcases List.mem_append.1 ((insertPrekey_sublist rows now p).subset hr) with hr | hr
  · exact hrows r hr
  · rw [List.mem_singleton.1 hr]
    rfl

/-- What is inserted comes behind what was there, and nothing else appears. -/
theorem foldl_insertPrekey_sublist (entries : List PrekeyEntry) (rows : List PrekeyRow)
    (now : Time) :
    (entries.foldl (insertPrekey mb now) rows).Sublist
      (rows ++ entries.map (entryRow mb now)) := by
  induction entries generalizing rows with
  | nil => simp
  | cons p entries ih =>
    refine (ih _).trans ?_
    rw [List.map_cons, ← List.singleton_append, ← List.append_assoc]
    exact (insertPrekey_sublist rows now p).append (List.Sublist.refl _)

/-- A last-resort prekey that is left was put with the others, or none was put. -/
theorem lastResort_of_mem_foldl {entries : List PrekeyEntry} {rows : List PrekeyRow} {now : Time}
    (hrows : ∀ r ∈ rows, r.mailboxId = mb) {q : PrekeyRow}
    (hq : q ∈ entries.foldl (insertPrekey mb now) rows) (hlast : q.lastResort = true) :
    (∃ p ∈ entries, p.lastResort = true ∧ q.id = p.id) ∨ ∀ p ∈ entries, p.lastResort = false := by
  induction entries generalizing rows with
  | nil => exact .inr (by simp)
  | cons p entries ih =>
    have hrows' := mailboxId_insertPrekey hrows now p
    by_cases hp : p.lastResort = true
    · by_cases hall : ∀ p' ∈ entries, p'.lastResort = false
      · -- Only `p` is a last-resort one, and it took the place of those before.
        have hfold : ∀ (es : List PrekeyEntry) (rs : List PrekeyRow),
            (∀ p' ∈ es, p'.lastResort = false) → q ∈ es.foldl (insertPrekey mb now) rs → q ∈ rs := by
          intro es rs hes hmem
          rcases List.mem_append.1 ((foldl_insertPrekey_sublist es rs now).subset hmem) with h | h
          · exact h
          · obtain ⟨p', hp', rfl⟩ := List.mem_map.1 h
            exact absurd hlast (by simp [entryRow, hes p' hp'])
        have hmem := hfold entries _ hall hq
        unfold insertPrekey at hmem
        rw [if_pos hp] at hmem
        rcases List.mem_append.1 hmem with h | h
        · obtain ⟨hr, hno⟩ := List.mem_filter.1 h
          exact absurd hlast (by simpa [hrows q hr] using hno)
        · rw [List.mem_singleton.1 h]
          exact .inl ⟨p, List.mem_cons_self, hp, rfl⟩
      · rcases ih hrows' hq with ⟨p', hp', hl, hid⟩ | hno
        · exact .inl ⟨p', List.mem_cons_of_mem _ hp', hl, hid⟩
        · exact absurd hno hall
    · rcases ih hrows' hq with ⟨p', hp', hl, hid⟩ | hno
      · exact .inl ⟨p', List.mem_cons_of_mem _ hp', hl, hid⟩
      · refine .inr fun p' hp' => ?_
        rcases List.mem_cons.1 hp' with rfl | hp'
        · simpa using hp
        · exact hno p' hp'

structure PutEffect (mb : Bytes) (replace : Bool) (generation : Bytes) (entries : List PrekeyEntry)
    (now : Time) (s s' : RelayStore) : Prop where
  generation : s'.generationOf mb = some generation
  sublist : (s'.prekeysOf mb).Sublist
    ((if replace then [] else s.prekeysOf mb) ++ entries.map (entryRow mb now))
  fresh : replace = false → ∀ p ∈ entries, ∀ q ∈ s.prekeysOf mb, q.id ≠ p.id
  lastResort : ∀ q ∈ s'.prekeysOf mb, q.lastResort = true →
    (∃ p ∈ entries, p.lastResort = true ∧ q.id = p.id) ∨ ∀ p ∈ entries, p.lastResort = false

theorem filter_keptPrekeys (s : RelayStore) (mb : Bytes) (replace : Bool) :
    (s.keptPrekeys mb replace).filter (·.mailboxId = mb) =
      if replace then [] else s.prekeysOf mb := by
  unfold keptPrekeys
  split_ifs
  · rw [List.filter_filter, List.filter_eq_nil_iff]
    intro r _
    simp
  · rfl

theorem prekeysOf_put (s : RelayStore) (mb : Bytes) (replace : Bool) (generation : Bytes)
    (entries : List PrekeyEntry) (now : Time) :
    prekeysOf { s.setGeneration mb generation with
        prekeys := entries.foldl (insertPrekey mb now) (s.keptPrekeys mb replace) } mb =
      entries.foldl (insertPrekey mb now) (if replace then [] else s.prekeysOf mb) := by
  rw [← filter_keptPrekeys s mb replace, ← filter_foldl_insertPrekey]
  rfl

/-- A put is accepted as a whole or changes nothing. -/
theorem putPrekeys_cases (s : RelayStore) (mb : Bytes) (replace : Bool) (generation : Bytes)
    (entries : List PrekeyEntry) (now : Time) (maxOneTime : Nat) :
    (s.putPrekeys mb replace generation entries now maxOneTime).1 = .ok ∧
        PutEffect mb replace generation entries now s
          (s.putPrekeys mb replace generation entries now maxOneTime).2 ∨
      (s.putPrekeys mb replace generation entries now maxOneTime).1 ≠ .ok ∧
        (s.putPrekeys mb replace generation entries now maxOneTime).2 = s := by
  unfold putPrekeys
  dsimp only
  split_ifs with hmb hgen hmany hdup
  · exact .inr ⟨by simp, rfl⟩
  · exact .inr ⟨by simp, rfl⟩
  · exact .inr ⟨by simp, rfl⟩
  · exact .inr ⟨by simp, rfl⟩
  left
  have hpool := filter_keptPrekeys s mb replace
  have hnew := prekeysOf_put s mb replace generation entries now
  refine ⟨rfl, generationOf_setGeneration s mb generation, ?_, ?_, ?_⟩
  · rw [hnew]
    exact foldl_insertPrekey_sublist _ _ _
  · intro hrep p hp q hq hid
    refine hdup ?_
    rw [hpool, hrep]
    simp only [Bool.false_eq_true, if_false, List.any_eq_true, decide_eq_true_eq]
    exact ⟨p, hp, q, hq, hid⟩
  · rw [hnew]
    intro q hq hlast
    refine lastResort_of_mem_foldl (fun r hr => ?_) hq hlast
    split_ifs at hr
    · simp at hr
    · simpa using (List.mem_filter.1 hr).2

/-- The one-time prekeys that are put come behind those that are there. -/
theorem oneTime_foldl_insertPrekey {now : Time} (entries : List PrekeyEntry)
    (rows : List PrekeyRow) :
    (entries.foldl (insertPrekey mb now) rows).filter (!·.lastResort) =
      rows.filter (!·.lastResort) ++ (entries.filter (!·.lastResort)).map (entryRow mb now) := by
  induction entries generalizing rows with
  | nil => simp
  | cons p entries ih =>
    have hkeep : (rows.filter fun r => ¬(r.mailboxId = mb ∧ r.lastResort = true)).filter
        (!·.lastResort) = rows.filter (!·.lastResort) := by
      rw [List.filter_filter]
      refine List.filter_congr fun r _ => ?_
      cases r.lastResort <;> simp
    rw [List.foldl_cons, ih]
    cases hp : p.lastResort with
    | true =>
      unfold insertPrekey
      rw [if_pos hp, List.filter_append, hkeep]
      simp [hp]
    | false =>
      unfold insertPrekey
      rw [if_neg (by simp [hp]), List.filter_append, List.filter_cons_of_pos (by simp [hp])]
      simp [hp, entryRow]

end PqSuite.Relay.RelayStore
