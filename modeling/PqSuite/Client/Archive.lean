import PqSuite.Lib.HashChain
import PqSuite.Protocol.Archive

/-!
# The client's check of an archive's chain (`archive.cpp`)

`verifyChain` accepts a list of entries that carries on from a known head: consecutive numbers, and
each hash the one that follows from the entry before it. A tombstone's content is gone, so its hash is
taken as given; `verifyChain_eq_some_iff` says exactly what is accepted, as a linked hash chain whose
tombstones are the items without content.
-/

namespace PqSuite.Archive

open Relay HashChain

/-- A place in an archive's chain: the number of entries up to there and the hash of the last. -/
structure Head where
  number : UInt64
  hash : Digest
  deriving DecidableEq

section

variable (sha256 : Bytes → Digest)

def genesisHash (archiveId : Bytes) : Digest := sha256 (archiveGenesisInput archiveId)

def entryHash (archiveId : Bytes) (number : UInt64) (previousHash : Digest) (blob : Bytes) :
    Digest :=
  sha256 (archiveEntryHashInput archiveId number previousHash blob)

/-- Checks that the entries carry on from `head` in an unbroken chain and returns the new head. -/
def verifyChain (archiveId : Bytes) (head : Head) : List ArchiveEntry → Option Head
  | [] => some head
  | e :: es =>
    if e.number ≠ head.number + 1 then none
    -- the next entry, whose own hash covers it, is what holds a tombstone's hash in place
    else if !e.tombstone && e.hash ≠ entryHash sha256 archiveId e.number head.hash e.ciphertext then
      none
    else verifyChain archiveId ⟨e.number, e.hash⟩ es

end

/-! ## Accepted lists as hash chains -/

def item (e : ArchiveEntry) : Item Digest (UInt64 × Bytes) :=
  ⟨e.hash, if e.tombstone then none else some (e.number, e.ciphertext)⟩

@[simp] theorem item_hash (e : ArchiveEntry) : (item e).hash = e.hash := rfl

theorem item_content_isSome {e : ArchiveEntry} :
    (item e).content.isSome ↔ e.tombstone = false := by
  cases h : e.tombstone <;> simp [item, h]

/-- How an entry's content is linked to the hash before it. -/
def link (sha256 : Bytes → Digest) (archiveId : Bytes) (prev : Digest) (c : UInt64 × Bytes) :
    Digest :=
  entryHash sha256 archiveId c.1 prev c.2

def Numbered : UInt64 → List ArchiveEntry → Prop
  | _, [] => True
  | n, e :: es => e.number = n + 1 ∧ Numbered (n + 1) es

/-- The inputs that `verifyChain` hashes when it accepts the entries from `head`. -/
def chainInputs (archiveId : Bytes) (head : Head) (es : List ArchiveEntry) : List Bytes :=
  (links head.hash (es.map item)).map fun x => archiveEntryHashInput archiveId x.2.1 x.1 x.2.2

variable {sha256 : Bytes → Digest} {archiveId : Bytes} {head start : Head}
  {as bs es : List ArchiveEntry}

theorem verifyChain_eq_some_iff :
    verifyChain sha256 archiveId start es = some head ↔
      Numbered start.number es ∧ Linked (link sha256 archiveId) start.hash (es.map item) ∧
        head = ⟨start.number + UInt64.ofNat es.length, endHash start.hash (es.map item)⟩ := by
  induction es generalizing start with
  | nil =>
    simp only [verifyChain, Option.some.injEq, Numbered, List.map_nil, Linked, true_and,
      List.length_nil, endHash_nil]
    rw [show start.number + UInt64.ofNat 0 = start.number from by simp]
    exact eq_comm
  | cons e es ih =>
    simp only [verifyChain]
    by_cases hn : e.number = start.number + 1
    · have hlen : start.number + 1 + UInt64.ofNat es.length
          = start.number + UInt64.ofNat (es.length + 1) := by
        rw [UInt64.ofNat_add, UInt64.add_assoc, UInt64.add_comm 1]; rfl
      cases ht : e.tombstone
      · simp [hn, ht, ih, Numbered, Linked, item, link, endHash, hlen]
        tauto
      · simp [hn, ht, ih, Numbered, Linked, item, endHash, hlen]
    · simp [hn, Numbered]

theorem Numbered.map_eq {n : UInt64} (ha : Numbered n as) (hb : Numbered n bs)
    (hlen : as.length = bs.length) :
    as.map ArchiveEntry.number = bs.map ArchiveEntry.number := by
  induction as generalizing n bs with
  | nil =>
    obtain rfl : bs = [] := List.length_eq_zero_iff.1 hlen.symm
    rfl
  | cons a as ih =>
    obtain _ | ⟨b, bs⟩ := bs
    · simp at hlen
    · rw [List.map_cons, List.map_cons, ha.1, hb.1, ih ha.2 hb.2 (by simpa using hlen)]

theorem le_or_eq_of_le_add_one {a b : UInt64} (h : a ≤ b + 1) : a ≤ b ∨ a = b + 1 := by
  grind

/-- An accepted list has every number up to the new head that the old one had not. -/
theorem le_or_mem_of_verifyChain (h : verifyChain sha256 archiveId start es = some head) {n : UInt64}
    (hn : n ≤ head.number) : n ≤ start.number ∨ ∃ e ∈ es, e.number = n := by
  induction es generalizing start with
  | nil =>
    obtain rfl := Option.some.inj h
    exact .inl hn
  | cons e es ih =>
    rw [verifyChain] at h
    split_ifs at h with hnum
    rcases ih h with hle | ⟨e', he', rfl⟩
    · rw [not_not.1 hnum] at hle
      rcases le_or_eq_of_le_add_one hle with hle | heq
      · exact .inl hle
      · exact .inr ⟨e, List.mem_cons_self, (not_not.1 hnum).trans heq.symm⟩
    · exact .inr ⟨e', List.mem_cons_of_mem _ he', rfl⟩

/-! ## What a common head pins down -/

theorem length_le_of_mem_links {h : Digest} {x : Digest × (UInt64 × Bytes)}
    (hx : x ∈ links h (es.map item)) : x.2.2.length ≤ maxArchiveEntryBytes := by
  obtain ⟨i, hi, hc⟩ := exists_content_of_mem_links hx
  obtain ⟨e, -, rfl⟩ := List.mem_map.1 hi
  cases ht : e.tombstone
  · have hx2 : (e.number, e.ciphertext) = x.2 := by simpa [item, ht] using hc
    exact hx2 ▸ e.ciphertext_size
  · simp [item, ht] at hc

/-- Linking is injective on what two accepted lists hashed if SHA-256 is. -/
theorem link_injOn
    (hsha : Set.InjOn sha256
      {x | x ∈ chainInputs archiveId start as ∨ x ∈ chainInputs archiveId start bs}) :
    Set.InjOn (fun x : Digest × (UInt64 × Bytes) => link sha256 archiveId x.1 x.2)
      {x | x ∈ links start.hash (as.map item) ∨ x ∈ links start.hash (bs.map item)} := by
  have hmem : ∀ x : Digest × (UInt64 × Bytes),
      x ∈ links start.hash (as.map item) ∨ x ∈ links start.hash (bs.map item) →
      archiveEntryHashInput archiveId x.2.1 x.1 x.2.2 ∈
        {x | x ∈ chainInputs archiveId start as ∨ x ∈ chainInputs archiveId start bs} :=
    fun x hx => hx.imp (List.mem_map_of_mem) (List.mem_map_of_mem)
  have hsize : ∀ x : Digest × (UInt64 × Bytes),
      x ∈ links start.hash (as.map item) ∨ x ∈ links start.hash (bs.map item) →
      x.2.2.length ≤ maxArchiveEntryBytes :=
    fun x hx => hx.elim length_le_of_mem_links length_le_of_mem_links
  rintro ⟨p, n, c⟩ hx ⟨p', n', c'⟩ hy hxy
  obtain ⟨-, rfl, rfl, rfl⟩ := archiveEntryHashInput_inj rfl (hsize _ hx) (hsize _ hy)
    (hsha (hmem _ hx) (hmem _ hy) hxy)
  rfl

/-- From a place behind which no content is gone in either list, two accepted lists that end at one
head are the same, and they reached the same hash there. -/
theorem drop_eq_of_verifyChain
    (hsha : Set.InjOn sha256
      {x | x ∈ chainInputs archiveId start as ∨ x ∈ chainInputs archiveId start bs})
    (ha : verifyChain sha256 archiveId start as = some head)
    (hb : verifyChain sha256 archiveId start bs = some head)
    (hlen : as.length = bs.length) {i : ℕ}
    (hac : ∀ e ∈ as.drop i, e.tombstone = false) (hbc : ∀ e ∈ bs.drop i, e.tombstone = false) :
    endHash start.hash ((as.take i).map item) = endHash start.hash ((bs.take i).map item) ∧
      (as.drop i).map item = (bs.drop i).map item := by
  have hsplit : ∀ l : List ArchiveEntry,
      l.map item = (l.take i).map item ++ (l.drop i).map item := by
    intro l; rw [← List.map_append, List.take_append_drop]
  obtain ⟨-, hla, rfl⟩ := verifyChain_eq_some_iff.1 ha
  obtain ⟨-, hlb, hend⟩ := verifyChain_eq_some_iff.1 hb
  have hinj := link_injOn hsha
  rw [hsplit, linked_append] at hla hlb
  rw [hsplit as, hsplit bs, links_append, links_append] at hinj
  rw [hsplit as, hsplit bs, endHash_append, endHash_append] at hend
  refine Linked.eq_of_endHash_eq hla.2 hlb.2 (by simp [hlen]) ?_ ?_ (hinj.mono ?_)
    (congrArg Head.hash hend)
  · intro x hx
    obtain ⟨e, he, rfl⟩ := List.mem_map.1 hx
    exact item_content_isSome.2 (hac e he)
  · intro x hx
    obtain ⟨e, he, rfl⟩ := List.mem_map.1 hx
    exact item_content_isSome.2 (hbc e he)
  · rintro x (hx | hx)
    · exact Or.inl (List.mem_append_right _ hx)
    · exact Or.inr (List.mem_append_right _ hx)

theorem endHash_take_succ {i : ℕ} (hi : i < es.length) {h : Digest} :
    endHash h ((es.take (i + 1)).map item) = es[i].hash := by
  rw [List.take_succ_eq_append_getElem hi, List.map_append, endHash_append]
  rfl

/-- Two lists of entries that are accepted from one start and end at one head have the same length
and the same numbers. The hashes agree at every place behind which no tombstone stands in either list,
and so do the ciphertexts there if neither of the two entries is a tombstone itself. -/
theorem verifyChain_agree
    (hsha : Set.InjOn sha256
      {x | x ∈ chainInputs archiveId start as ∨ x ∈ chainInputs archiveId start bs})
    (hla : as.length < 2 ^ 64) (hlb : bs.length < 2 ^ 64)
    (ha : verifyChain sha256 archiveId start as = some head)
    (hb : verifyChain sha256 archiveId start bs = some head) :
    as.length = bs.length ∧ as.map ArchiveEntry.number = bs.map ArchiveEntry.number ∧
      ∀ i (hi : i < as.length) (hi' : i < bs.length),
        (∀ e ∈ as.drop (i + 1), e.tombstone = false) →
        (∀ e ∈ bs.drop (i + 1), e.tombstone = false) →
        as[i].hash = bs[i].hash ∧
          (as[i].tombstone = false → bs[i].tombstone = false →
            as[i].ciphertext = bs[i].ciphertext) := by
  obtain ⟨hna, -, hea⟩ := verifyChain_eq_some_iff.1 ha
  obtain ⟨hnb, -, heb⟩ := verifyChain_eq_some_iff.1 hb
  have hlen : as.length = bs.length := by
    have hnum : UInt64.ofNat as.length = UInt64.ofNat bs.length :=
      (UInt64.add_right_inj _).1 (congrArg Head.number (hea.symm.trans heb))
    have := congrArg UInt64.toNat hnum
    rwa [UInt64.toNat_ofNat_of_lt' hla, UInt64.toNat_ofNat_of_lt' hlb] at this
  refine ⟨hlen, hna.map_eq hnb hlen, fun i hi hi' hac hbc => ⟨?_, fun hat hbt => ?_⟩⟩
  · rw [← endHash_take_succ hi, ← endHash_take_succ hi']
    exact (drop_eq_of_verifyChain hsha ha hb hlen hac hbc).1
  · -- with the two entries at `i` themselves the suffixes still have all their contents
    have hdrop := (drop_eq_of_verifyChain hsha ha hb hlen (i := i)
      (by rw [List.drop_eq_getElem_cons hi]; exact List.forall_mem_cons.2 ⟨hat, hac⟩)
      (by rw [List.drop_eq_getElem_cons hi']; exact List.forall_mem_cons.2 ⟨hbt, hbc⟩)).2
    rw [List.drop_eq_getElem_cons hi, List.drop_eq_getElem_cons hi', List.map_cons,
      List.map_cons] at hdrop
    have hitem := congrArg Item.content (List.cons.inj hdrop).1
    simp only [item, hat, hbt, Bool.false_eq_true, if_false, Option.some.injEq,
      Prod.mk.injEq] at hitem
    exact hitem.2

/-! ### Entries made for a concrete archive -/

/-- The entry that holds `ciphertext` as number `number` after `prev`. -/
def contentEntry (archiveId : Bytes) (number : UInt64) (prev : Digest) (ciphertext : Bytes)
    (hne : ciphertext ≠ []) (hsize : ciphertext.length ≤ maxArchiveEntryBytes) : ArchiveEntry where
  number := number
  hash := entryHash byteSum archiveId number prev ciphertext
  ciphertext := ciphertext
  tombstone := false
  ciphertext_size := hsize
  empty_iff := by simp [hne]

def tombstoneEntry (number : UInt64) (hash : Digest) : ArchiveEntry where
  number := number
  hash := hash
  ciphertext := []
  tombstone := true
  ciphertext_size := Nat.zero_le _
  empty_iff := by simp

def sampleId : Bytes := List.replicate 16 7

def sampleStart : Head := ⟨0, genesisHash byteSum sampleId⟩

def firstEntry (c : UInt8) : ArchiveEntry :=
  contentEntry sampleId 1 sampleStart.hash [c] (by simp) (by simp [maxArchiveEntryBytes])

def secondEntry : ArchiveEntry :=
  contentEntry sampleId 2 (firstEntry 1).hash [5] (by simp) (by decide)

theorem injOn_of_forall_mem {f : Bytes → Digest} {l l' : List Bytes}
    (h : ∀ x ∈ l ++ l', ∀ y ∈ l ++ l', f x = f y → x = y) :
    Set.InjOn f {x | x ∈ l ∨ x ∈ l'} :=
  fun x hx y hy => h x (List.mem_append.2 hx) y (List.mem_append.2 hy)

/-- Two entries with content agree behind a common head although the first of one list is gone. -/
theorem verifyChain_agree_secondEntry :
    verifyChain byteSum sampleId sampleStart [firstEntry 1, secondEntry] =
        some ⟨2, secondEntry.hash⟩ ∧
      verifyChain byteSum sampleId sampleStart [tombstoneEntry 1 (firstEntry 1).hash, secondEntry]
        = some ⟨2, secondEntry.hash⟩ ∧
      (firstEntry 1).hash = (tombstoneEntry 1 (firstEntry 1).hash).hash := by
  have ha : verifyChain byteSum sampleId sampleStart [firstEntry 1, secondEntry] =
      some ⟨2, secondEntry.hash⟩ := by decide +kernel
  have hb : verifyChain byteSum sampleId sampleStart
      [tombstoneEntry 1 (firstEntry 1).hash, secondEntry] = some ⟨2, secondEntry.hash⟩ := by
    decide +kernel
  have h := verifyChain_agree (injOn_of_forall_mem (by decide +kernel)) (by decide) (by decide) ha hb
  exact ⟨ha, hb, (h.2.2 0 (by decide) (by decide) (by simp [secondEntry, contentEntry])
    (by simp [secondEntry, contentEntry])).1⟩

/-- Behind a tombstone a common head pins nothing down: two lists that differ in their first entry,
in hash and in ciphertext, are both accepted and end at the same head. -/
theorem verifyChain_differs_before_tombstone :
    Set.InjOn byteSum
        {x | x ∈ chainInputs sampleId sampleStart [firstEntry 1, tombstoneEntry 2 sampleStart.hash] ∨
          x ∈ chainInputs sampleId sampleStart [firstEntry 2, tombstoneEntry 2 sampleStart.hash]} ∧
      verifyChain byteSum sampleId sampleStart [firstEntry 1, tombstoneEntry 2 sampleStart.hash] =
        some ⟨2, sampleStart.hash⟩ ∧
      verifyChain byteSum sampleId sampleStart [firstEntry 2, tombstoneEntry 2 sampleStart.hash] =
        some ⟨2, sampleStart.hash⟩ ∧
      (firstEntry 1).tombstone = false ∧ (firstEntry 2).tombstone = false ∧
      (firstEntry 1).hash ≠ (firstEntry 2).hash ∧
      (firstEntry 1).ciphertext ≠ (firstEntry 2).ciphertext := by
  refine ⟨injOn_of_forall_mem (by decide +kernel), by decide +kernel, by decide +kernel, rfl, rfl,
    by decide +kernel, by decide⟩

end PqSuite.Archive
