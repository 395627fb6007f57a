import PqSuite.Lib.Reach
import PqSuite.Server.Sessions

/-!
# The archives of the relay as append-only logs

An archive is compared with the list of appends that were acknowledged for it: `LogOk` says that its
entries are those appends in order, each extending the head its sender named, with only the content of
some taken out. Every effect a request can have keeps it, so it holds in every state that sessions and
sweeps can bring the relay to.
-/

namespace PqSuite.Relay

open Archive HashChain Reach

variable {svc : Service} {now : Time} {ss : Session} {payload : Bytes} {msg : WireMessage}
  {st st' : RelayStore} {rate : RateLimiter} {p : ArchiveRow → Bool} {archiveId id : Bytes}

/-! ## The log of one archive -/

/-- Each append named the head the one before it left, and was told the head it made. -/
def Extends (sha256 : Bytes → Digest) : ArchiveHead → List Ack → Prop
  | _, [] => True
  | h, k :: ks =>
    k.expected = h ∧ k.expected.number ≠ 18446744073709551615 ∧
      k.ciphertext.length ≤ maxArchiveEntryBytes ∧
      k.head = ⟨k.expected.number + 1, sha256 k.input⟩ ∧ Extends sha256 k.head ks

def lastHead : ArchiveHead → List Ack → ArchiveHead
  | h, [] => h
  | _, k :: ks => lastHead k.head ks

def emptyHead (sha256 : Bytes → Digest) (archiveId : Bytes) : ArchiveHead :=
  ⟨0, genesisHash sha256 archiveId⟩

/-- The row holds what was appended, unless its content was taken out. -/
structure Holds (k : Ack) (e : EntryRow) : Prop where
  number : e.number = k.head.number
  hash : e.hash = k.head.hash
  content : e.ciphertext = if e.redacted then [] else k.ciphertext

def totalBytes (es : List EntryRow) : ℕ := (es.map (·.ciphertext.length)).sum

/-- An archive's row and entries are those of the appends `ks` acknowledged for it, in order. -/
structure LogOk (svc : Service) (hashed : List Bytes) (a : ArchiveRow) (es : List EntryRow)
    (ks : List Ack) : Prop where
  archiveId : ∀ k ∈ ks, k.archiveId = a.id
  input_mem : ∀ k ∈ ks, k.input ∈ hashed
  chained : Extends svc.sha256 (emptyHead svc.sha256 a.id) ks
  holds : List.Forall₂ Holds ks es
  head : ⟨a.headNumber, a.headHash⟩ = lastHead (emptyHead svc.sha256 a.id) ks
  bytes : a.bytes = totalBytes es
  quota : a.bytes ≤ svc.limits.archiveQuotaBytes

section

variable {sha256 : Bytes → Digest} {h : ArchiveHead} {ks : List Ack} {k : Ack}
  {es : List EntryRow}

theorem lastHead_concat : lastHead h (ks ++ [k]) = k.head := by
  induction ks generalizing h with
  | nil => rfl
  | cons x ks ih => exact ih

theorem extends_concat : Extends sha256 h (ks ++ [k]) ↔ Extends sha256 h ks ∧
    k.expected = lastHead h ks ∧ k.expected.number ≠ 18446744073709551615 ∧
      k.ciphertext.length ≤ maxArchiveEntryBytes ∧
      k.head = ⟨k.expected.number + 1, sha256 k.input⟩ := by
  induction ks generalizing h with
  | nil => simp [Extends, lastHead]
  | cons x ks ih => simp only [List.cons_append, Extends, ih, lastHead, and_assoc]

theorem toNat_succ {n : UInt64} (hn : n ≠ 18446744073709551615) :
    (n + 1).toNat = n.toNat + 1 := by
  have hlt := n.toNat_lt
  have hne : n.toNat ≠ 18446744073709551615 := fun h => hn (UInt64.toNat_inj.1 h)
  rw [UInt64.toNat_add, UInt64.toNat_one]
  omega

theorem Extends.numbers (hk : Extends sha256 h ks) :
    ks.map (·.head.number.toNat) = List.range' (h.number.toNat + 1) ks.length := by
  induction ks generalizing h with
  | nil => rfl
  | cons x ks ih =>
    obtain ⟨rfl, hmax, -, hhead, hks⟩ := hk
    have hx : x.head.number.toNat = x.expected.number.toNat + 1 := by
      rw [hhead]; exact toNat_succ hmax
    rw [List.map_cons, ih hks, hx, List.length_cons, List.range'_succ]

theorem Extends.lastHead_number (hk : Extends sha256 h ks) :
    (lastHead h ks).number.toNat = h.number.toNat + ks.length := by
  induction ks generalizing h with
  | nil => rfl
  | cons x ks ih =>
    obtain ⟨rfl, hmax, -, hhead, hks⟩ := hk
    rw [lastHead, ih hks, hhead, toNat_succ hmax, List.length_cons]
    omega

theorem Extends.head_eq (hk : Extends sha256 h ks) (hmem : k ∈ ks) :
    k.head = ⟨k.expected.number + 1, sha256 k.input⟩ ∧
      k.ciphertext.length ≤ maxArchiveEntryBytes := by
  induction ks generalizing h with
  | nil => simp at hmem
  | cons x ks ih =>
    obtain ⟨-, -, hsize, hhead, hks⟩ := hk
    rcases List.mem_cons.1 hmem with rfl | hmem
    · exact ⟨hhead, hsize⟩
    · exact ih hks hmem

end

/-! ## Redaction -/

def ofArchive (archiveId : Bytes) (es : List EntryRow) : List EntryRow :=
  es.filter (·.archiveId = archiveId)

/-- Only contents of one archive were taken out, `freed` bytes in all. -/
structure Redacts (archiveId : Bytes) (es es' : List EntryRow) (freed : ℕ) : Prop where
  other : ∀ id ≠ archiveId, ofArchive id es' = ofArchive id es
  ids : es'.map (·.archiveId) = es.map (·.archiveId)
  hashes : (ofArchive archiveId es').map (·.hash) = (ofArchive archiveId es).map (·.hash)
  holds : ∀ ks, List.Forall₂ Holds ks (ofArchive archiveId es) →
    List.Forall₂ Holds ks (ofArchive archiveId es')
  bytes : totalBytes (ofArchive archiveId es) = totalBytes (ofArchive archiveId es') + freed

theorem Redacts.refl (archiveId : Bytes) (es : List EntryRow) : Redacts archiveId es es 0 :=
  ⟨fun _ _ => rfl, rfl, rfl, fun _ h => h, rfl⟩

theorem Redacts.trans {es es' es'' : List EntryRow} {m n : ℕ} (h : Redacts archiveId es es' m)
    (h' : Redacts archiveId es' es'' n) :
    Redacts archiveId es es'' (m + n) where
  other id hid := (h'.other id hid).trans (h.other id hid)
  ids := h'.ids.trans h.ids
  hashes := h'.hashes.trans h.hashes
  holds ks hk := h'.holds ks (h.holds ks hk)
  bytes := by rw [h.bytes, h'.bytes]; omega

theorem ofArchive_redact (archiveId : Bytes) (es : List EntryRow) (hash : Digest) :
    ofArchive archiveId (es.map fun e =>
      if e.archiveId = archiveId ∧ e.hash = hash then { e with ciphertext := [], redacted := true } else e) =
      (ofArchive archiveId es).map fun e =>
        if e.hash = hash then { e with ciphertext := [], redacted := true } else e := by
  refine (Rows.filter_map_of_key EntryRow.archiveId _ (fun e => ?_) (· = archiveId)).trans ?_
  · split_ifs <;> rfl
  · refine List.map_congr_left fun e he => ?_
    have : e.archiveId = archiveId := by simpa using (List.mem_filter.1 he).2
    simp [this]

theorem exists_of_redactOne {es es' : List EntryRow} {hash : Digest} {size : ℕ}
    (h : RelayStore.redactOne archiveId es hash = some (size, es')) :
    ∃ found ∈ ofArchive archiveId es, found.hash = hash ∧ found.ciphertext.length = size ∧
      (es.map fun e =>
        if e.archiveId = archiveId ∧ e.hash = hash then { e with ciphertext := [], redacted := true }
        else e) = es' := by
  obtain ⟨found, hfound, heq⟩ := Option.map_eq_some_iff.1 h
  have hf : found.archiveId = archiveId ∧ found.hash = hash := by
    simpa using List.find?_some hfound
  exact ⟨found, List.mem_filter.2 ⟨List.mem_of_find?_eq_some hfound, by simp [hf.1]⟩, hf.2,
    Prod.mk.inj heq⟩

/-- Emptying the rows with one hash, when no two rows of the archive share it. -/
theorem redactOne_redacts {es es' : List EntryRow} {hash : Digest} {size : ℕ}
    (hnodup : ((ofArchive archiveId es).map (·.hash)).Nodup)
    (h : RelayStore.redactOne archiveId es hash = some (size, es')) : Redacts archiveId es es' size := by
  obtain ⟨found, hmem, hf, rfl, rfl⟩ := exists_of_redactOne h
  set f : EntryRow → EntryRow := fun e => { e with ciphertext := [], redacted := true }
  have hkey : ∀ e : EntryRow, (if e.archiveId = archiveId ∧ e.hash = hash then f e else e).archiveId
      = e.archiveId := by
    intro e; split_ifs <;> rfl
  have hsame := ofArchive_redact archiveId es hash
  refine ⟨fun id hid => ?_, ?_, ?_, fun ks hks => ?_, ?_⟩
  · exact Rows.filter_map_ite_of_ne (l := es) EntryRow.archiveId f (fun _ => rfl) hid (·.hash = hash)
  · rw [List.map_map]
    exact List.map_congr_left fun e _ => hkey e
  · rw [hsame, List.map_map]
    refine List.map_congr_left fun e _ => ?_
    simp only [Function.comp_apply]
    split_ifs <;> rfl
  · rw [hsame, List.forall₂_map_right_iff]
    refine hks.imp fun k e hk => ?_
    split_ifs
    · exact ⟨hk.number, hk.hash, by simp⟩
    · exact hk
  · rw [hsame]
    exact Rows.sum_map_update hnodup hmem hf fun _ => rfl

theorem redactLoop_redacts {hashes : List Digest} {es es' : List EntryRow} {freed freed' : ℕ}
    (hnodup : ((ofArchive archiveId es).map (·.hash)).Nodup)
    (h : RelayStore.redactLoop archiveId hashes es freed = some (freed', es')) :
    ∃ n, freed' = freed + n ∧ Redacts archiveId es es' n := by
  induction hashes generalizing es freed with
  | nil =>
    obtain ⟨rfl, rfl⟩ := Prod.mk.inj (Option.some.inj h)
    exact ⟨0, rfl, .refl _ _⟩
  | cons hash hashes ih =>
    simp only [RelayStore.redactLoop] at h
    split at h
    · simp at h
    · rename_i size es₁ hone
      have hred := redactOne_redacts hnodup hone
      obtain ⟨n, rfl, hn⟩ := ih (hred.hashes ▸ hnodup) h
      exact ⟨size + n, by omega, hred.trans hn⟩

/-! ## The invariant of the relay -/

def World.acksOf (w : World) (archiveId : Bytes) : List Ack :=
  w.acks.filter (·.archiveId = archiveId)

/-- Every archive is the log of its acknowledged appends, and nothing is left of an archive that is
gone. -/
structure World.Inv (svc : Service) (w : World) : Prop where
  ids : (w.store.archives.map (·.id)).Nodup
  log : ∀ a ∈ w.store.archives,
    LogOk svc w.hashed a (w.store.entriesOf a.id) (w.acksOf a.id)
  entries : ∀ e ∈ w.store.archiveEntries, (w.store.findArchive e.archiveId).isSome
  acks : ∀ k ∈ w.acks, (w.store.findArchive k.archiveId).isSome

variable {w : World} {a : ArchiveRow} {es : List EntryRow} {ks : List Ack}
  {hashed : List Bytes}

theorem map_hash_eq (h : List.Forall₂ Holds ks es) :
    es.map (·.hash) = ks.map (·.head.hash) := by
  induction h with
  | nil => rfl
  | cons hk _ ih => rw [List.map_cons, List.map_cons, hk.hash, ih]

/-- No two entries of an archive share a hash: their numbers differ, so what was hashed differs. -/
theorem LogOk.hashes_nodup (h : LogOk svc hashed a es ks)
    (hsha : Set.InjOn svc.sha256 {x | x ∈ hashed}) : (es.map (·.hash)).Nodup := by
  have hnum : (ks.map (·.head.number.toNat)).Nodup := by
    rw [h.chained.numbers]; exact List.nodup_range'
  rw [map_hash_eq h.holds]
  refine List.Nodup.map_on (fun x hx y hy hxy => ?_) (List.Nodup.of_map _ hnum)
  obtain ⟨hxh, hxs⟩ := h.chained.head_eq hx
  obtain ⟨hyh, hys⟩ := h.chained.head_eq hy
  rw [hxh, hyh] at hxy
  have hin : x.input = y.input := hsha (h.input_mem x hx) (h.input_mem y hy) hxy
  have hid : x.archiveId.length = y.archiveId.length := by
    rw [h.archiveId x hx, h.archiveId y hy]
  obtain ⟨-, hn, -, -⟩ := archiveEntryHashInput_inj hid hxs hys hin
  refine List.inj_on_of_nodup_map hnum hx hy ?_
  rw [hxh, hyh, hn]

theorem LogOk.mono (h : LogOk svc hashed a es ks) {hashed' : List Bytes}
    (hsub : hashed ⊆ hashed') : LogOk svc hashed' a es ks :=
  { h with input_mem := fun k hk => hsub (h.input_mem k hk) }

theorem findArchive_isSome :
    (st.findArchive id).isSome ↔ ∃ a ∈ st.archives, a.id = id := Rows.lookup_isSome

/-- The state after a store call, before anything of a deleted archive is forgotten. -/
def World.after (w : World) (st' : RelayStore) (hashed : List Bytes) (acked : Option Ack) : World :=
  { w with store := st', hashed := w.hashed ++ hashed, acks := w.acks ++ acked.toList }

theorem acksOf_prune (h : (w.store.findArchive id).isSome) : w.prune.acksOf id = w.acksOf id := by
  rw [World.prune, World.acksOf, World.acksOf, List.filter_filter]
  refine List.filter_congr fun k _ => ?_
  by_cases hk : k.archiveId = id
  · simp [hk, h]
  · simp [hk]

/-- Once the archives are right, forgetting the appends to those that are gone is. -/
theorem World.Inv.prune (hids : (w.store.archives.map (·.id)).Nodup)
    (hlog : ∀ a ∈ w.store.archives, LogOk svc w.hashed a (w.store.entriesOf a.id) (w.acksOf a.id))
    (hentries : ∀ e ∈ w.store.archiveEntries, (w.store.findArchive e.archiveId).isSome) :
    w.prune.Inv svc where
  ids := hids
  log a ha := by
    rw [acksOf_prune (w := w) (findArchive_isSome.2 ⟨a, ha, rfl⟩)]
    exact hlog a ha
  entries := hentries
  acks k hk := (List.mem_filter.1 hk).2

section Steps

variable {k : Ack} {p : ArchiveRow → Bool} {id : Bytes} {digests : List Digest}

theorem World.Inv.keep (hw : w.Inv svc) (harch : st'.archives = w.store.archives)
    (hentries : st'.archiveEntries = w.store.archiveEntries) :
    (w.after st' hashed none).prune.Inv svc := by
  have hfind : ∀ id, st'.findArchive id = w.store.findArchive id := by
    intro id; rw [RelayStore.findArchive, harch]; rfl
  refine .prune ?_ (fun a ha => ?_) (fun e he => ?_)
  · exact harch ▸ hw.ids
  · have hold := hw.log a (harch ▸ ha)
    simp only [World.after, World.acksOf, RelayStore.entriesOf, hentries, Option.toList_none,
      List.append_nil]
    exact hold.mono (List.subset_append_left _ _)
  · exact (hfind _).symm ▸ hw.entries e (hentries ▸ he)

theorem World.Inv.create (hw : w.Inv svc) (hnew : w.store.findArchive a.id = none)
    (hnumber : a.headNumber = 0) (hhash : a.headHash = genesisHash svc.sha256 a.id)
    (hbytes : a.bytes = 0) (harch : st'.archives = w.store.archives ++ [a])
    (hentries : st'.archiveEntries = w.store.archiveEntries) :
    (w.after st' [] none).prune.Inv svc := by
  have hno := Rows.lookup_eq_none.1 hnew
  refine .prune ?_ (fun b hb => ?_) (fun e he => ?_)
  · rw [World.after, harch]
    exact Rows.nodup_concat hw.ids hno
  · simp only [World.after, World.acksOf, RelayStore.entriesOf, hentries, Option.toList_none,
      List.append_nil]
    rcases List.mem_append.1 (harch ▸ hb) with hb | hb
    · exact hw.log b hb
    · -- nothing is kept of an earlier archive with this ID
      obtain rfl := List.mem_singleton.1 hb
      have hes : w.store.archiveEntries.filter (·.archiveId = b.id) = [] := by
        refine List.filter_eq_nil_iff.2 fun e he heq => ?_
        obtain ⟨c, hc, hce⟩ := findArchive_isSome.1 (hw.entries e he)
        exact hno c hc (hce.trans (by simpa using heq))
      have hks : w.acks.filter (·.archiveId = b.id) = [] := by
        refine List.filter_eq_nil_iff.2 fun k hk hkeq => ?_
        obtain ⟨c, hc, hck⟩ := findArchive_isSome.1 (hw.acks k hk)
        exact hno c hc (hck.trans (by simpa using hkeq))
      rw [hes, hks]
      exact ⟨by simp, by simp, trivial, .nil, by rw [hnumber, hhash]; rfl, by rw [hbytes]; rfl,
        by rw [hbytes]; omega⟩
  · obtain ⟨c, hc, hce⟩ := findArchive_isSome.1 (hw.entries e (hentries ▸ he))
    exact findArchive_isSome.2 ⟨c, by rw [World.after, harch]; simp [hc], hce⟩

section Append

variable (hexpected : k.expected = ⟨a.headNumber, a.headHash⟩)
  (hmax : k.expected.number ≠ 18446744073709551615)
  (hsize : k.ciphertext.length ≤ maxArchiveEntryBytes)
  (hhead : k.head = ⟨k.expected.number + 1, svc.sha256 k.input⟩)
  (hquota : a.bytes + k.ciphertext.length ≤ svc.limits.archiveQuotaBytes)
include hexpected hmax hsize hhead hquota

theorem LogOk.append (h : LogOk svc hashed a es ks) {e : EntryRow} {b : ArchiveRow}
    (hid : k.archiveId = a.id) (he : Holds k e) (hred : e.redacted = false) (hbid : b.id = a.id)
    (hbhead : (⟨b.headNumber, b.headHash⟩ : ArchiveHead) = k.head)
    (hbytes : b.bytes = a.bytes + k.ciphertext.length) :
    LogOk svc (hashed ++ [k.input]) b (es ++ [e]) (ks ++ [k]) where
  archiveId x hx := by
    rcases List.mem_append.1 hx with hx | hx
    · exact (h.archiveId x hx).trans hbid.symm
    · rw [List.mem_singleton.1 hx, hid, hbid]
  input_mem x hx := by
    rcases List.mem_append.1 hx with hx | hx
    · exact List.mem_append_left _ (h.input_mem x hx)
    · rw [List.mem_singleton.1 hx]; simp
  chained := by
    rw [hbid, extends_concat]
    exact ⟨h.chained, hexpected.trans h.head, hmax, hsize, hhead⟩
  holds := List.rel_append h.holds (.cons he .nil)
  head := by rw [hbhead, lastHead_concat]
  bytes := by
    rw [hbytes, h.bytes, totalBytes, totalBytes, List.map_append, List.sum_append, Nat.cast_add]
    simp [he.content, hred]
  quota := hbytes ▸ hquota

theorem World.Inv.append (hw : w.Inv svc) (hfind : w.store.findArchive k.archiveId = some a)
    (hentries : st'.archiveEntries = w.store.archiveEntries ++
      [⟨k.archiveId, k.head.number, k.head.hash, k.ciphertext, now, false⟩])
    (harch : st'.archives = w.store.archives.map fun r =>
      if r.id = k.archiveId then
        { r with
          headNumber := k.head.number, headHash := k.head.hash,
          bytes := a.bytes + k.ciphertext.length, lastActivity := now }
      else r) : (w.after st' [k.input] (some k)).prune.Inv svc := by
  obtain ⟨ha, haid⟩ := Rows.lookup_eq_some hfind
  have hids : st'.archives.map (·.id) = w.store.archives.map (·.id) := by
    rw [harch]
    exact Rows.map_key (fun r => by split_ifs <;> rfl) _
  have hisSome : ∀ id, (st'.findArchive id).isSome ↔ (w.store.findArchive id).isSome := by
    intro id
    simp only [findArchive_isSome, ← List.mem_map (f := ArchiveRow.id)]
    rw [hids]
  refine .prune ?_ (fun b' hb' => ?_) (fun e he => ?_)
  · exact (congrArg List.Nodup hids).mpr hw.ids
  · obtain ⟨b, hb, rfl⟩ := List.mem_map.1 (harch ▸ hb')
    simp only [World.after, World.acksOf, RelayStore.entriesOf, hentries, Option.toList_some,
      List.filter_append]
    by_cases hbk : b.id = k.archiveId
    · obtain rfl := List.inj_on_of_nodup_map hw.ids hb ha (hbk.trans haid.symm)
      simp only [hbk, if_true, decide_true, List.filter_cons_of_pos, List.filter_nil]
      exact (hbk ▸ hw.log b hb).append hexpected hmax hsize hhead hquota hbk.symm
        ⟨rfl, rfl, by simp⟩ rfl hbk.symm rfl rfl
    · have hne : k.archiveId ≠ b.id := fun h => hbk h.symm
      simp only [hbk, if_false, hne, decide_false, Bool.false_eq_true, not_false_eq_true,
        List.filter_cons_of_neg, List.filter_nil, List.append_nil]
      exact (hw.log b hb).mono (List.subset_append_left _ _)
  · refine (hisSome _).2 ?_
    rcases List.mem_append.1 (hentries ▸ he) with he | he
    · exact hw.entries e he
    · rw [List.mem_singleton.1 he, hfind]; rfl

end Append

theorem World.Inv.delete (hw : w.Inv svc) :
    (w.after (w.store.deleteArchives p) [] none).prune.Inv svc := by
  have hgone : ∀ b ∈ w.store.archives, p b = false →
      (w.store.archives.any fun c => c.id = b.id ∧ p c) = false := by
    intro b hb hpb
    refine List.any_eq_false.2 fun c hc => ?_
    rw [decide_eq_true_eq]
    rintro ⟨hcb, hpc⟩
    rw [List.inj_on_of_nodup_map hw.ids hc hb hcb] at hpc
    simp [hpb] at hpc
  have hfilter : ∀ {ρ : Type} (f : ρ → Bytes) (l : List ρ), ∀ b ∈ w.store.archives, p b = false →
      (l.filter fun r => !(w.store.archives.any fun c => c.id = f r ∧ p c)).filter (f · = b.id)
        = l.filter (f · = b.id) := by
    intro ρ f l b hb hpb
    rw [List.filter_filter]
    refine List.filter_congr fun r _ => ?_
    by_cases hr : f r = b.id
    · simp only [hr, hgone b hb hpb, decide_true, Bool.not_false, Bool.and_self]
    · simp [hr]
  refine .prune ?_ (fun b hb => ?_) (fun e he => ?_)
  · exact (hw.ids.sublist (List.filter_sublist.map _))
  · obtain ⟨hb, hpb⟩ := List.mem_filter.1 hb
    have hpb : p b = false := by simpa using hpb
    have hes := hfilter EntryRow.archiveId w.store.archiveEntries b hb hpb
    simp only [World.after, World.acksOf, RelayStore.entriesOf, RelayStore.deleteArchives,
      Option.toList_none, List.append_nil]
    rw [hes]
    exact hw.log b hb
  · obtain ⟨he, hg⟩ := List.mem_filter.1 he
    obtain ⟨c, hc, hce⟩ := findArchive_isSome.1 (hw.entries e he)
    refine findArchive_isSome.2 ⟨c, List.mem_filter.2 ⟨hc, ?_⟩, hce⟩
    have hg : ∀ x ∈ w.store.archives, x.id = e.archiveId → p x = false := by simpa using hg
    simp [hg c hc hce]

theorem World.Inv.redact (hw : w.Inv svc) (hsha : Set.InjOn svc.sha256 {x | x ∈ w.hashed})
    (h : w.store.redactEntries id digests = (.ok, st')) :
    (w.after st' [] none).prune.Inv svc := by
  obtain ⟨hsome, freed, es, hloop, rfl⟩ := (redactEntries_spec h).done rfl
  obtain ⟨a, ha, haid⟩ := findArchive_isSome.1 hsome
  obtain ⟨n, hn, hred⟩ := redactLoop_redacts
    (haid ▸ (hw.log a ha).hashes_nodup hsha) hloop
  rw [Nat.zero_add] at hn
  subst hn
  have hids : (w.store.archives.map fun r =>
      if r.id = id then { r with bytes := r.bytes - freed } else r).map (·.id)
        = w.store.archives.map (·.id) := Rows.map_key (fun r => by split_ifs <;> rfl) _
  refine .prune ?_ (fun b' hb' => ?_) (fun e he => ?_)
  · exact (congrArg List.Nodup hids).mpr hw.ids
  · obtain ⟨b, hb, rfl⟩ := List.mem_map.1 hb'
    have hold := hw.log b hb
    simp only [World.after, World.acksOf, RelayStore.entriesOf, Option.toList_none,
      List.append_nil]
    by_cases hbid : b.id = id
    · subst hbid
      simp only [if_true]
      refine { hold with
        holds := hred.holds _ hold.holds, bytes := ?_, quota := ?_ }
      · have := hred.bytes
        have hb := hold.bytes
        simp only [RelayStore.entriesOf] at hb
        simp only [ofArchive] at this
        rw [this] at hb
        show b.bytes - freed = _
        push_cast at hb
        omega
      · exact (Int.sub_le_self _ (Int.natCast_nonneg _)).trans hold.quota
    · simp only [hbid, if_false]
      have := hred.other b.id hbid
      simp only [ofArchive] at this
      rw [this]
      exact hold
  · have hmem : e.archiveId ∈ es.map (·.archiveId) := List.mem_map_of_mem he
    rw [hred.ids] at hmem
    obtain ⟨e', he', heq⟩ := List.mem_map.1 hmem
    obtain ⟨c, hc, hce⟩ := findArchive_isSome.1 (hw.entries e' he')
    have : c.id ∈ w.store.archives.map (·.id) := List.mem_map_of_mem hc
    rw [← hids] at this
    obtain ⟨d, hd, hdc⟩ := List.mem_map.1 this
    exact findArchive_isSome.2 ⟨d, hd, hdc.trans (hce.trans heq)⟩

theorem World.Inv.storeStep {acked : Option Ack} (hw : w.Inv svc)
    (hsha : Set.InjOn svc.sha256 {x | x ∈ w.hashed})
    (hs : StoreStep svc w.store st' hashed acked) : (w.after st' hashed acked).prune.Inv svc := by
  cases hs with
  | keep harch hentries => exact hw.keep harch hentries
  | create hnew hnumber hhash hbytes harch hentries =>
    exact hw.create hnew hnumber hhash hbytes harch hentries
  | append hfind hexpected hmax _ hsize hhead hquota hentries harch =>
    exact hw.append hexpected hmax hsize hhead hquota hfind hentries harch
  | delete p => exact hw.delete
  | redact h => exact hw.redact hsha h

theorem World.Inv.apply {o : Outcome} {i : ℕ} (hw : w.Inv svc)
    (hsha : Set.InjOn svc.sha256 {x | x ∈ w.hashed})
    (ho : StoreStep svc w.store o.store o.hashed o.acked) : (w.apply i o).Inv svc :=
  have h := hw.storeStep hsha ho
  ⟨h.ids, h.log, h.entries, h.acks⟩

/-- The invariant is about the archives and their history only. -/
theorem World.Inv.congr {w' : World} (hw : w.Inv svc) (hsame : SameArchives w.store w'.store)
    (hhashed : w'.hashed = w.hashed) (hacks : w'.acks = w.acks) : w'.Inv svc := by
  have hentries : ∀ id, w'.store.entriesOf id = w.store.entriesOf id := fun id => by
    rw [RelayStore.entriesOf, RelayStore.entriesOf, hsame.entries]
  have hof : ∀ id, w'.acksOf id = w.acksOf id := fun id => by rw [World.acksOf, World.acksOf, hacks]
  have hfind : ∀ id, w'.store.findArchive id = w.store.findArchive id := fun id => by
    rw [RelayStore.findArchive, RelayStore.findArchive, hsame.archives]
  refine ⟨?_, ?_, ?_, ?_⟩
  · rw [hsame.archives]; exact hw.ids
  · intro a ha
    rw [hentries, hof, hhashed]
    exact hw.log a (hsame.archives ▸ ha)
  · rw [hsame.entries]
    simpa only [hfind] using hw.entries
  · rw [hacks]
    simpa only [hfind] using hw.acks

end Steps

/-! ## Archives that are deleted -/

theorem mem_archives_deleteArchives {a : ArchiveRow} :
    a ∈ (st.deleteArchives p).archives ↔ a ∈ st.archives ∧ p a = false := by
  simp [RelayStore.deleteArchives, List.mem_filter]

theorem mem_entries_deleteArchives {e : EntryRow} :
    e ∈ (st.deleteArchives p).archiveEntries ↔
      e ∈ st.archiveEntries ∧ ∀ a ∈ st.archives, a.id = e.archiveId → p a = false := by
  simp [RelayStore.deleteArchives, List.mem_filter]

theorem mem_keys_deleteArchives {k : ArchiveKeyRow} :
    k ∈ (st.deleteArchives p).archiveKeys ↔
      k ∈ st.archiveKeys ∧ ∀ a ∈ st.archives, a.id = k.archiveId → p a = false := by
  simp [RelayStore.deleteArchives, List.mem_filter]

/-! ## Runs -/

def World.Step (svc : Service) (w : World) (e : Event) (w' : World) : Prop := w' = w.step svc e

theorem World.step_step (w : World) (e : Event) : World.Step svc w e (w.step svc e) := rfl

theorem World.Inv.init (hw : w.Init) : w.Inv svc := by
  obtain ⟨harch, hentries, -, -, -, -, hacks⟩ := hw
  exact ⟨by simp [harch], by simp [harch], by simp [hentries], by simp [hacks]⟩

theorem World.Inv.quiet {e : Event} (hw : w.Inv svc) (he : e.quiet = true) :
    (w.step svc e).Inv svc := by
  obtain ⟨harch, hhashed, hacks⟩ : SameArchives w.store (w.step svc e).store ∧
      (w.step svc e).hashed = w.hashed ∧ (w.step svc e).acks = w.acks := World.step_quiet he
  exact hw.congr harch hhashed hacks

theorem World.Inv.step (hw : w.Inv svc) (hsha : Set.InjOn svc.sha256 {x | x ∈ w.hashed})
    (e : Event) : (w.step svc e).Inv svc := by
  cases e with
  | message i now msg =>
    exact World.message_rule (P := World.Inv svc) hw fun _ _ _ => hw.apply hsha handleMessage_steps.effect
  | resume i now => exact World.resume_rule (P := World.Inv svc) hw fun _ _ _ _ => hw.apply hsha resume_effect
  | sweep now =>
    -- the envelopes and invites go first, and then the archives
    let v : World := { w with store := { w.store with
      envelopes := w.store.envelopes.filter fun e => now < e.expiresAt
      invites := w.store.invites.filter fun r => now < r.expiresAt } }
    have hv : v.Inv svc := hw.congr ⟨rfl, rfl, rfl, rfl⟩ rfl rfl
    have h : (v.after (v.store.sweepArchives now) [] none).prune.Inv svc :=
      hv.storeStep hsha (.delete _)
    simp only [World.after, List.append_nil, Option.toList_none] at h
    exact ⟨h.ids, h.log, h.entries, h.acks⟩
  | _ => exact hw.quiet rfl

theorem World.hashed_subset_step (e : Event) : w.hashed ⊆ (w.step svc e).hashed := by
  by_cases he : e.quiet = true
  · rw [(World.step_quiet he).2.1]
    exact List.Subset.refl _
  cases e with
  | message i now msg =>
    exact World.message_rule (P := fun v => w.hashed ⊆ v.hashed) (List.Subset.refl _) fun _ _ _ =>
      List.subset_append_left _ _
  | resume i now =>
    exact World.resume_rule (P := fun v => w.hashed ⊆ v.hashed) (List.Subset.refl _) fun _ _ _ _ =>
      List.subset_append_left _ _
  | sweep now => exact List.Subset.refl _
  | _ => exact absurd rfl he

/-- In every state the relay can be in, as long as nothing it hashed collides. -/
theorem World.inv_of_reachable (hr : Reachable World.Init (World.Step svc) w)
    (hsha : Set.InjOn svc.sha256 {x | x ∈ w.hashed}) : w.Inv svc := by
  refine hr.invariant (P := fun w => Set.InjOn svc.sha256 {x | x ∈ w.hashed} → w.Inv svc)
    (fun w hw _ => .init hw) ?_ hsha
  rintro w e w' ih rfl hsha'
  have hsub : Set.InjOn svc.sha256 {x | x ∈ w.hashed} :=
    hsha'.mono fun x hx => World.hashed_subset_step e hx
  exact (ih hsub).step hsub e

/-! ## What holds of every archive -/

def EntryRow.item (e : EntryRow) : Item Digest (UInt64 × Bytes) :=
  ⟨e.hash, if e.redacted then none else some (e.number, e.ciphertext)⟩

/-- An entry's place in the chain, which nothing may change. -/
def EntryRow.place (e : EntryRow) : UInt64 × Digest := (e.number, e.hash)

/-- What a member can rely on about an archive of the relay. -/
structure ArchiveSound (svc : Service) (w : World) (a : ArchiveRow) : Prop where
  /-- The entries are numbered from 1 to the head number. -/
  numbers : (w.store.entriesOf a.id).map (·.number.toNat) = List.range' 1 a.headNumber.toNat
  /-- The hash of an entry that still has its content is that of the archive, its number, the hash
  before it and its ciphertext, from the genesis hash on. -/
  linked : Linked (Archive.link svc.sha256 a.id) (genesisHash svc.sha256 a.id)
    ((w.store.entriesOf a.id).map EntryRow.item)
  /-- The head is the last entry. -/
  head : a.headHash = endHash (genesisHash svc.sha256 a.id)
    ((w.store.entriesOf a.id).map EntryRow.item)
  bytes : a.bytes = totalBytes (w.store.entriesOf a.id)
  quota : a.bytes ≤ svc.limits.archiveQuotaBytes
  /-- The entries are the acknowledged appends, one for one and in order. -/
  acked : List.Forall₂ (fun (k : Ack) (e : EntryRow) => k.head = ⟨e.number, e.hash⟩ ∧
    (e.redacted = false → e.ciphertext = k.ciphertext)) (w.acksOf a.id) (w.store.entriesOf a.id)
  /-- Each of them extended the head that its sender named. -/
  extended : Extends svc.sha256 (emptyHead svc.sha256 a.id) (w.acksOf a.id)

theorem linked_of_holds {sha256 : Bytes → Digest} {h : ArchiveHead} (hid : ∀ k ∈ ks, k.archiveId = id)
    (hx : Extends sha256 h ks) (hk : List.Forall₂ Holds ks es) :
    Linked (Archive.link sha256 id) h.hash (es.map EntryRow.item) ∧
      endHash h.hash (es.map EntryRow.item) = (lastHead h ks).hash := by
  induction hk generalizing h with
  | nil => exact ⟨trivial, rfl⟩
  | @cons k e ks es hke _ ih =>
    obtain ⟨rfl, -, -, hhead, hks⟩ := hx
    have hk := hid k (by simp)
    obtain ⟨hl, hend⟩ := ih (fun k' hk' => hid k' (by simp [hk'])) hks
    rw [← hke.hash] at hl hend
    refine ⟨⟨fun c hc => ?_, hl⟩, hend⟩
    · obtain ⟨hr, rfl⟩ : e.redacted = false ∧ (e.number, e.ciphertext) = c := by
        cases hred : e.redacted <;> simp_all [EntryRow.item]
      simp only [EntryRow.item, Archive.link, hke.number, hke.hash, hke.content, hr, hhead,
        Bool.false_eq_true, if_false, entryHash, Ack.input, hk]

theorem map_place_eq (h : List.Forall₂ Holds ks es) :
    es.map EntryRow.place = ks.map fun k => (k.head.number, k.head.hash) := by
  induction h with
  | nil => rfl
  | cons hk _ ih => rw [List.map_cons, List.map_cons, ih, EntryRow.place, hk.number, hk.hash]

theorem LogOk.sound (h : LogOk svc w.hashed a (w.store.entriesOf a.id) (w.acksOf a.id)) :
    ArchiveSound svc w a := by
  obtain ⟨hl, hend⟩ := linked_of_holds h.archiveId h.chained h.holds
  have hnumber : a.headNumber.toNat = (w.acksOf a.id).length := by
    have hn : a.headNumber = (lastHead (emptyHead svc.sha256 a.id) (w.acksOf a.id)).number :=
      congrArg ArchiveHead.number h.head
    rw [hn, h.chained.lastHead_number]
    exact Nat.zero_add _
  refine ⟨?_, hl, ?_, h.bytes, h.quota, ?_, h.chained⟩
  · have := congrArg (List.map fun x : UInt64 × Digest => x.1.toNat) (map_place_eq h.holds)
    simp only [List.map_map] at this
    exact this.trans (h.chained.numbers.trans (by rw [hnumber]; rfl))
  · exact (congrArg ArchiveHead.hash h.head).trans hend.symm
  · refine h.holds.imp fun k e hk => ⟨?_, fun hr => ?_⟩
    · rw [hk.number, hk.hash]
    · rw [hk.content, hr]; rfl

/-- A step only adds to the appends of an archive that is there before and after it. -/
theorem acksOf_prefix_step {e : Event} (h : ((w.step svc e).store.findArchive id).isSome) :
    w.acksOf id <+: (w.step svc e).acksOf id := by
  have happly : ∀ (i : ℕ) (o : Outcome), (o.store.findArchive id).isSome →
      w.acksOf id <+: (w.apply i o).acksOf id := by
    intro i o ho
    rw [World.apply, acksOf_prune ho]
    exact ⟨_, (List.filter_append _ _).symm⟩
  by_cases he : e.quiet = true
  · have hsame : w.acksOf id = (w.step svc e).acksOf id := by
      rw [World.acksOf, World.acksOf, (World.step_quiet he).2.2]
    exact hsame ▸ List.prefix_rfl
  cases e with
  | message i now msg =>
    exact World.message_rule (P := fun v => (v.store.findArchive id).isSome → w.acksOf id <+: v.acksOf id)
      (fun _ => List.prefix_rfl) (fun _ _ _ => happly _ _) h
  | resume i now =>
    exact World.resume_rule (P := fun v => (v.store.findArchive id).isSome → w.acksOf id <+: v.acksOf id)
      (fun _ => List.prefix_rfl) (fun _ _ _ _ => happly _ _) h
  | sweep now =>
    have hsame := acksOf_prune (w := { w with
      store := w.store.sweep now, rate := w.rate.prune now }) h
    exact hsame.symm ▸ List.prefix_rfl
  | _ => exact absurd rfl he

/-- The append is the one the message asks for: to the archive the session signed in to, after the head
and with the ciphertext that the sender named. -/
def Ack.Answers (k : Ack) (ss : Session) (msg : WireMessage) : Prop :=
  msg.type = .archiveAppend ∧ (∃ keyHash, ss.archiveSession = some (k.archiveId, keyHash)) ∧
    ∃ m, decodeArchiveAppend msg.payload = some m ∧ k.expected = ⟨m.expectedNumber, m.expectedHash⟩ ∧
      k.ciphertext = m.ciphertext

theorem Request.answers {o : Outcome} (h : Request svc ss msg st o) (hk : o.acked = some k) :
    k.Answers ss msg := by
  cases h with
  | mail h => cases h <;> exact nomatch hk
  | file h => cases h <;> exact nomatch hk
  | archive h =>
    cases h with
    | appended rate hss ht hm hmax hinput h =>
      obtain rfl := Option.some.inj hk
      exact ⟨ht, ⟨_, hss⟩, _, hm, rfl, rfl⟩
    | _ => exact nomatch hk
  | _ => exact nomatch hk

/-- In every state that sessions and sweeps can bring the relay to: each archive is one linear log of the
appends that were acknowledged for it; no later step changes a number or a hash of an archive that stays;
and the acknowledgement a session is sent is that of the append it asked for. -/
theorem archives_sound (hr : Reachable World.Init (World.Step svc) w)
    (hsha : Set.InjOn svc.sha256 {x | x ∈ w.hashed}) :
    (∀ a ∈ w.store.archives, ArchiveSound svc w a) ∧
      (∀ e, ∀ a ∈ w.store.archives, ∀ a' ∈ (w.step svc e).store.archives, a'.id = a.id →
        (w.store.entriesOf a.id).map EntryRow.place <+:
          ((w.step svc e).store.entriesOf a.id).map EntryRow.place) ∧
      (∀ now ss msg p, ⟨.archiveAppendOk, p⟩ ∈ (handleMessage svc now ss msg w.store w.rate).replies ↔
        ∃ k, (handleMessage svc now ss msg w.store w.rate).acked = some k ∧ k.Answers ss msg ∧
          p = encodeArchiveHead k.head) := by
  have hw := World.inv_of_reachable hr hsha
  refine ⟨fun a ha => (hw.log a ha).sound, fun e a ha a' ha' hid => ?_,
    fun now ss msg p => (handleMessage_steps.answer p).trans (exists_congr fun k => ?_)⟩
  · have hw' := hw.step hsha e
    have hlog' := hid ▸ (hw'.log a' ha').holds
    rw [map_place_eq (hw.log a ha).holds, map_place_eq hlog']
    exact (acksOf_prefix_step (findArchive_isSome.2 ⟨a', ha', hid⟩)).map _
  · exact and_congr_right fun hk =>
      (and_iff_right ((handleMessage_request svc now ss msg w.store w.rate).answers hk)).symm

/-! ### A run with one archive and one append -/

def sampleService : Service where
  sha256 := byteSum
  verify := fun _ _ _ => true
  sigPublicKeySize := 2
  relayId := []
  limits := {}

def sampleMailbox : Bytes := List.replicate 16 1
def sampleArchive : Bytes := List.replicate 16 2
def sampleToken : Bytes := List.replicate 32 3
def sampleKey : Bytes := [4, 5]

def sampleWorld : World where
  store := { mailboxes := [{ id := sampleMailbox, accessPublicKey := [9] }] }
  rate := ⟨fun _ => {}⟩
  sessions := fun _ => none
  hashed := []
  acks := []

/-- One session makes the archive; another joins it, signs in and appends. -/
def sampleEvents : List Event :=
  [.connect 0 [] [],
    .message 0 100 ⟨.relayAuth, writeBlob sampleMailbox ++ writeBlob [1]⟩,
    .message 0 100 ⟨.archiveCreate,
      writeBlob sampleArchive ++ writeU32 1 ++ writeBlob (byteSum sampleToken).1⟩,
    .connect 1 [] [],
    .message 1 101 ⟨.archiveJoin,
      writeBlob sampleArchive ++ writeBlob sampleToken ++ writeBlob sampleKey ++ writeBlob [1]⟩,
    .message 1 102 ⟨.archiveAuth,
      writeBlob sampleArchive ++ writeBlob (byteSum sampleKey).1 ++ writeBlob [1]⟩,
    .message 1 103 ⟨.archiveAppend,
      writeU64 0 ++ writeBlob (genesisHash byteSum sampleArchive).1 ++ writeBlob [7, 7, 7]⟩]

theorem archives_sound_sample :
    (sampleEvents.foldl (World.step sampleService) sampleWorld).store.archives.map
        (fun a => (a.id, a.headNumber, a.bytes)) = [(sampleArchive, 1, 3)] ∧
      ∀ a ∈ (sampleEvents.foldl (World.step sampleService) sampleWorld).store.archives,
        ArchiveSound sampleService
          (sampleEvents.foldl (World.step sampleService) sampleWorld) a := by
  have hinit : sampleWorld.Init := ⟨rfl, rfl, rfl, rfl, fun _ => rfl, rfl, rfl⟩
  have hr : Reachable World.Init (World.Step sampleService)
      (sampleEvents.foldl (World.step sampleService) sampleWorld) :=
    reachable_foldl World.step_step (.start hinit) sampleEvents
  have hone : (sampleEvents.foldl (World.step sampleService) sampleWorld).hashed.length = 1 := by
    decide +kernel
  refine ⟨by decide +kernel, (archives_sound hr ?_).1⟩
  obtain ⟨x, hx⟩ := List.length_eq_one_iff.1 hone
  rw [hx]
  intro y hy z hz _
  rw [List.mem_singleton.1 hy, List.mem_singleton.1 hz]

end PqSuite.Relay
