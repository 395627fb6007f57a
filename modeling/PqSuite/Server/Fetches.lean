import PqSuite.Lib.Pages
import PqSuite.Protocol.Codecs
import PqSuite.Server.Authorisation

/-!
# What a fetch returns (`relay_store.cpp`, `relay_protocol.cpp`)

The entries of an archive are numbered from 1 to its head number, and a member fetches those from a number
on. The number comes in as an unsigned one, and `fetch_entries` hands it to the database as a signed one:
from `2 ^ 63` on it is negative there, and every entry is at or above it. What is returned is the page that
was asked for, unless the numbers on both sides of this border meet in one query.
-/

namespace PqSuite.Relay

open Pages Reach

variable {svc : Service} {now : Time} {ss : Session} {st st' : RelayStore} {w : World} {id : Bytes}

namespace RelayStore

/-! ## The numbers of the entries -/

/-- Entries are of archives that are there, and are numbered from 1 to the head. -/
structure Numbered (st : RelayStore) : Prop where
  ids : (st.archives.map (·.id)).Nodup
  linked : st.Linked
  numbered : ∀ a ∈ st.archives, Pages.Numbered (·.number.toNat) (st.entriesOf a.id)
  head : ∀ a ∈ st.archives, (st.entriesOf a.id).length = a.headNumber.toNat

namespace Numbered

theorem keep (h : st.Numbered) (harchives : st'.archives = st.archives)
    (hentries : st'.archiveEntries = st.archiveEntries) : st'.Numbered := by
  have hfind : ∀ id, st'.findArchive id = st.findArchive id := fun id => by
    rw [findArchive, findArchive, harchives]
  have hof : ∀ id, st'.entriesOf id = st.entriesOf id := fun id => by rw [entriesOf, entriesOf, hentries]
  refine ⟨harchives ▸ h.ids, fun e he => ?_, fun a ha => ?_, fun a ha => ?_⟩
  · rw [hfind]
    exact h.linked e (hentries ▸ he)
  · rw [hof]
    exact h.numbered a (harchives ▸ ha)
  · rw [hof]
    exact h.head a (harchives ▸ ha)

theorem entriesOf_eq_nil (h : st.Numbered) (hnone : st.findArchive id = none) : st.entriesOf id = [] := by
  refine List.filter_eq_nil_iff.2 fun e he hid => ?_
  have hsome := h.linked e he
  rw [of_decide_eq_true hid, hnone] at hsome
  cases hsome

theorem create (h : st.Numbered) {a : ArchiveRow} (hnew : st.findArchive a.id = none)
    (hnumber : a.headNumber = 0) (harchives : st'.archives = st.archives ++ [a])
    (hentries : st'.archiveEntries = st.archiveEntries) : st'.Numbered := by
  have hof : ∀ id, st'.entriesOf id = st.entriesOf id := fun id => by rw [entriesOf, entriesOf, hentries]
  have hnone := h.entriesOf_eq_nil hnew
  refine ⟨?_, fun e he => ?_, fun b hb => ?_, fun b hb => ?_⟩
  · rw [harchives]
    exact Rows.nodup_concat h.ids (Rows.lookup_eq_none.1 hnew)
  · obtain ⟨b, hb, hid⟩ := findArchive_isSome.1 (h.linked e (hentries ▸ he))
    exact findArchive_isSome.2 ⟨b, harchives ▸ List.mem_append_left _ hb, hid⟩
  · rw [hof]
    rcases List.mem_append.1 (harchives ▸ hb) with hb | hb
    · exact h.numbered b hb
    · rw [List.mem_singleton.1 hb, hnone]
      exact .nil
  · rw [hof]
    rcases List.mem_append.1 (harchives ▸ hb) with hb | hb
    · exact h.head b hb
    · rw [List.mem_singleton.1 hb, hnone, hnumber]
      rfl

/-- Archives are updated in place, and their entries keep their numbers. -/
theorem update (h : st.Numbered) {f : ArchiveRow → ArchiveRow} (harchives : st'.archives = st.archives.map f)
    (hid : ∀ a, (f a).id = a.id) (hlinked : ∀ e ∈ st'.archiveEntries, ∃ a ∈ st.archives, a.id = e.archiveId)
    (hentries : ∀ a ∈ st.archives, Pages.Numbered (·.number.toNat) (st'.entriesOf a.id) ∧
      (st'.entriesOf a.id).length = (f a).headNumber.toNat) : st'.Numbered := by
  refine ⟨?_, fun e he => ?_, fun b hb => ?_, fun b hb => ?_⟩
  · rw [harchives, Rows.map_key hid]
    exact h.ids
  · obtain ⟨a, ha, heq⟩ := hlinked e he
    exact findArchive_isSome.2 ⟨f a, harchives ▸ List.mem_map_of_mem ha, (hid a).trans heq⟩
  · obtain ⟨a, ha, rfl⟩ := List.mem_map.1 (harchives ▸ hb)
    rw [hid]
    exact (hentries a ha).1
  · obtain ⟨a, ha, rfl⟩ := List.mem_map.1 (harchives ▸ hb)
    rw [hid]
    exact (hentries a ha).2

theorem append (h : st.Numbered) {a : ArchiveRow} (hfind : st.findArchive id = some a) {number : UInt64}
    (hmax : a.headNumber ≠ 18446744073709551615) (hnumber : number = a.headNumber + 1) {e : EntryRow}
    (he : e.archiveId = id ∧ e.number = number) {f : ArchiveRow → ArchiveRow} (hid : ∀ r, (f r).id = r.id)
    (hf : ∀ r, (f r).headNumber = if r.id = id then number else r.headNumber)
    (hentries : st'.archiveEntries = st.archiveEntries ++ [e])
    (harchives : st'.archives = st.archives.map f) : st'.Numbered := by
  obtain ⟨ha, rfl⟩ := Rows.lookup_eq_some hfind
  have hnext : number.toNat = a.headNumber.toNat + 1 := by
    have hlt : a.headNumber.toNat ≠ 18446744073709551615 := fun heq => hmax (UInt64.toNat_inj.1 heq)
    have := a.headNumber.toNat_lt
    rw [hnumber, UInt64.toNat_add, UInt64.toNat_one]
    omega
  refine h.update harchives hid (fun e' he' => ?_) fun b hb => ?_
  · rcases List.mem_append.1 (hentries ▸ he') with he' | he'
    · exact findArchive_isSome.1 (h.linked e' he')
    · rw [List.mem_singleton.1 he', he.1]
      exact ⟨a, ha, rfl⟩
  · rw [hf, entriesOf, hentries]
    by_cases hba : b.id = a.id
    · obtain rfl := List.inj_on_of_nodup_map h.ids hb ha hba
      have hof : (st.archiveEntries ++ [e]).filter (·.archiveId = b.id) = st.entriesOf b.id ++ [e] := by
        rw [List.filter_append, List.filter_singleton, decide_eq_true he.1]
        rfl
      have hhead := h.head b hb
      rw [hof, if_pos rfl, hnext, List.length_append, hhead]
      refine ⟨(h.numbered b hb).concat ?_, rfl⟩
      rw [he.2, hnext, hhead]
    · have hof : (st.archiveEntries ++ [e]).filter (·.archiveId = b.id) = st.entriesOf b.id :=
        filter_append_of_neg fun r hr => by
          rw [List.mem_singleton.1 hr, he.1]
          exact decide_eq_false fun heq => hba heq.symm
      rw [hof, if_neg hba]
      exact ⟨h.numbered b hb, h.head b hb⟩

theorem delete (h : st.Numbered) (p : ArchiveRow → Bool) : (st.deleteArchives p).Numbered := by
  have hof : ∀ a ∈ (st.deleteArchives p).archives, (st.deleteArchives p).entriesOf a.id = st.entriesOf a.id := by
    intro a ha
    obtain ⟨ha, hpa⟩ := mem_archives_deleteArchives.1 ha
    refine filter_filter_of_imp fun e he => ?_
    have hid : e.archiveId = a.id := of_decide_eq_true he
    rw [hid, Bool.not_eq_true', List.any_eq_false]
    intro b hb hgone
    obtain ⟨hba, hpb⟩ := of_decide_eq_true hgone
    rw [List.inj_on_of_nodup_map h.ids hb ha hba, hpa] at hpb
    cases hpb
  refine ⟨h.ids.sublist (List.filter_sublist.map _), fun e he => ?_, fun a ha => ?_, fun a ha => ?_⟩
  · obtain ⟨he, hkeep⟩ := mem_entries_deleteArchives.1 he
    obtain ⟨a, ha, hid⟩ := findArchive_isSome.1 (h.linked e he)
    exact findArchive_isSome.2 ⟨a, mem_archives_deleteArchives.2 ⟨ha, hkeep a ha hid⟩, hid⟩
  · rw [hof a ha]
    exact h.numbered a (mem_archives_deleteArchives.1 ha).1
  · rw [hof a ha]
    exact h.head a (mem_archives_deleteArchives.1 ha).1

theorem redact (h : st.Numbered) {hashes : List Digest} (hdone : st.redactEntries id hashes = (.ok, st')) :
    st'.Numbered := by
  unfold redactEntries at hdone
  split_ifs at hdone
  · cases hdone
  · split at hdone
    · cases hdone
    · rename_i freed es hloop
      obtain rfl := (Prod.mk.inj hdone).2
      have hplaces : es.map (fun e => (e.archiveId, e.number.toNat)) =
          st.archiveEntries.map fun e => (e.archiveId, e.number.toNat) := redactLoop_map (fun _ => rfl) hloop
      have hnumbers : ∀ id, (es.filter (·.archiveId = id)).map (·.number.toNat) =
          (st.entriesOf id).map (·.number.toNat) := by
        intro id
        have hfilter := congrArg (fun l => (l.filter (·.1 = id)).map (·.2)) hplaces
        simp only [List.filter_map, List.map_map] at hfilter
        exact hfilter
      refine h.update rfl (fun a => by split_ifs <;> rfl) (fun e he => ?_) fun a ha => ?_
      · obtain ⟨e₀, he₀, hid⟩ := redactLoop_archiveIds hloop he
        exact hid ▸ findArchive_isSome.1 (h.linked e₀ he₀)
      · have hlength := congrArg List.length (hnumbers a.id)
        rw [List.length_map, List.length_map] at hlength
        refine ⟨?_, ?_⟩
        · rw [Pages.Numbered, entriesOf, hnumbers, h.numbered a ha, hlength]
        · rw [entriesOf, hlength, h.head a ha]
          split_ifs <;> rfl

theorem storeStep (h : st.Numbered) {hashed : List Bytes} {acked : Option Ack}
    (hs : StoreStep svc st st' hashed acked) : st'.Numbered := by
  cases hs with
  | keep harchives hentries => exact h.keep harchives hentries
  | create hnew hnumber _ _ harchives hentries => exact h.create hnew hnumber harchives hentries
  | append hfind hexpected hmax _ _ hhead _ hentries harchives =>
    rw [hexpected] at hmax
    refine h.append hfind hmax (congrArg ArchiveHead.number (hhead.trans (by rw [hexpected]))) ⟨rfl, rfl⟩
      (fun r => ?_) (fun r => ?_) hentries harchives
    · split_ifs <;> rfl
    · split_ifs <;> rfl
  | delete p => exact h.delete p
  | redact hdone => exact h.redact hdone

end Numbered

end RelayStore

theorem World.numbered_step (hw : w.store.Numbered) (e : Event) : (w.step svc e).store.Numbered := by
  by_cases hq : e.quiet = true
  · have hsame : SameArchives w.store (w.step svc e).store := (World.step_quiet hq).1
    exact hw.keep hsame.archives hsame.entries
  cases e with
  | message i now msg =>
    exact World.message_rule (P := fun v => v.store.Numbered) hw fun _ _ _ =>
      hw.storeStep handleMessage_steps.effect
  | resume i now =>
    exact World.resume_rule (P := fun v => v.store.Numbered) hw fun _ _ _ _ => hw.storeStep resume_effect
  | sweep now =>
    have hkept : RelayStore.Numbered { w.store with
        envelopes := w.store.envelopes.filter fun e => now < e.expiresAt
        invites := w.store.invites.filter fun r => now < r.expiresAt } := hw.keep rfl rfl
    exact hkept.delete _
  | _ => exact absurd rfl hq

theorem World.numbered_of_reachable (hr : Reachable World.Init (World.Step svc) w) : w.store.Numbered := by
  refine hr.invariant (P := fun w => w.store.Numbered) (fun w hw => ?_) fun w e w' hw hstep => ?_
  · obtain ⟨harchives, hentries, -⟩ := hw
    refine ⟨?_, ?_, ?_, ?_⟩
    · rw [harchives]
      exact .nil
    · unfold RelayStore.Linked
      rw [hentries]
      exact fun e he => absurd he List.not_mem_nil
    · rw [harchives]
      exact fun a ha => absurd ha List.not_mem_nil
    · rw [harchives]
      exact fun a ha => absurd ha List.not_mem_nil
  · rw [hstep]
    exact World.numbered_step hw e

/-! ## The query -/

namespace RelayStore

/-- Half of the numbers are negative ones in the database. -/
theorem sqlInt_of_le {n : UInt64} (h : 2 ^ 63 ≤ n.toNat) : sqlInt n = n.toNat - 2 ^ 64 := by
  show n.toBitVec.toInt = _
  have hmsb : 2 ^ 64 ≤ 2 * n.toBitVec.toNat := by
    show 2 ^ 64 ≤ 2 * n.toNat
    omega
  rw [BitVec.toInt_eq_toNat_cond, if_neg (Nat.not_lt.2 hmsb)]
  rfl

theorem sqlInt_of_lt {n : UInt64} (h : n.toNat < 2 ^ 63) : sqlInt n = n.toNat := Rows.toInt_toInt64 h

/-- When the signed numbers of the database return the page that was asked for. Below the border it must
not reach over it, and above the border there must be enough entries for all of it, or none at all. -/
def InRange (start limit head : ℕ) : Prop :=
  if start < 2 ^ 63 then head < 2 ^ 63 ∨ start + limit ≤ 2 ^ 63 else head = 0 ∨ start + limit ≤ head + 1

section Query

variable {number : UInt64} {limit : ℕ} (hlog : Pages.Numbered (·.number.toNat) (st.entriesOf id))

include hlog

theorem lt_of_mem_take {e : EntryRow} (he : e ∈ (st.entriesOf id).take (2 ^ 63 - 1)) :
    e.number.toNat < 2 ^ 63 := by
  have hbounds := Pages.number_bounds (hlog.take _) he
  rw [List.length_take] at hbounds
  omega

theorem le_of_mem_drop {e : EntryRow} (he : e ∈ (st.entriesOf id).drop (2 ^ 63 - 1)) :
    2 ^ 63 ≤ e.number.toNat :=
  (Pages.number_bounds (hlog.map_drop _) he).1

/-- The database puts the entries above the border before the others. -/
theorem fetchEntries_eq : st.fetchEntries id number limit =
    (((st.entriesOf id).drop (2 ^ 63 - 1)).filter (fun e => sqlInt number ≤ sqlInt e.number) ++
      ((st.entriesOf id).take (2 ^ 63 - 1)).filter fun e => sqlInt number ≤ sqlInt e.number).take limit := by
  have hlow : ((st.entriesOf id).take (2 ^ 63 - 1)).Pairwise fun a b => sqlInt a.number < sqlInt b.number := by
    refine (Pages.increasing (hlog.take _)).imp_of_mem fun {a b} ha hb hab => ?_
    rw [sqlInt_of_lt (lt_of_mem_take hlog ha), sqlInt_of_lt (lt_of_mem_take hlog hb)]
    omega
  have hhigh : ((st.entriesOf id).drop (2 ^ 63 - 1)).Pairwise fun a b =>
      sqlInt a.number < sqlInt b.number := by
    refine (Pages.increasing (hlog.map_drop _)).imp_of_mem fun {a b} ha hb hab => ?_
    rw [sqlInt_of_le (le_of_mem_drop hlog ha), sqlInt_of_le (le_of_mem_drop hlog hb)]
    omega
  rw [fetchEntries]
  nth_rewrite 1 [← List.take_append_drop (2 ^ 63 - 1) (st.entriesOf id)]
  rw [List.filter_append, mergeSort_append (hlow.filter _) (hhigh.filter _)]
  intro a ha b hb
  have hlt := a.number.toNat_lt
  rw [sqlInt_of_le (le_of_mem_drop hlog (List.mem_filter.1 ha).1),
    sqlInt_of_lt (lt_of_mem_take hlog (List.mem_filter.1 hb).1)]
  omega

/-- A start below the border leaves out what is above it. -/
theorem fetchEntries_of_lt (h : number.toNat < 2 ^ 63) : st.fetchEntries id number limit =
    (((st.entriesOf id).take (2 ^ 63 - 1)).drop (number.toNat - 1)).take limit := by
  have hhigh : ((st.entriesOf id).drop (2 ^ 63 - 1)).filter
      (fun e => sqlInt number ≤ sqlInt e.number) = [] := by
    refine List.filter_eq_nil_iff.2 fun e he => ?_
    have hlt := e.number.toNat_lt
    rw [sqlInt_of_lt h, sqlInt_of_le (le_of_mem_drop hlog he), decide_eq_true_eq]
    omega
  have hlow : ((st.entriesOf id).take (2 ^ 63 - 1)).filter (fun e => sqlInt number ≤ sqlInt e.number) =
      ((st.entriesOf id).take (2 ^ 63 - 1)).filter (fun e => number.toNat ≤ e.number.toNat) := by
    refine List.filter_congr fun e he => decide_eq_decide.2 ?_
    rw [sqlInt_of_lt h, sqlInt_of_lt (lt_of_mem_take hlog he)]
    omega
  rw [fetchEntries_eq hlog, hhigh, List.nil_append, hlow, filter_eq_drop (hlog.take _)]

/-- A start above the border lets everything below it in, after what is above. -/
theorem fetchEntries_of_le (h : 2 ^ 63 ≤ number.toNat) : st.fetchEntries id number limit =
    ((st.entriesOf id).drop (number.toNat - 1) ++ (st.entriesOf id).take (2 ^ 63 - 1)).take limit := by
  have hlow : ((st.entriesOf id).take (2 ^ 63 - 1)).filter (fun e => sqlInt number ≤ sqlInt e.number) =
      (st.entriesOf id).take (2 ^ 63 - 1) := by
    refine List.filter_eq_self.2 fun e he => ?_
    have hlt := number.toNat_lt
    rw [sqlInt_of_le h, sqlInt_of_lt (lt_of_mem_take hlog he), decide_eq_true_eq]
    omega
  have hhigh : ((st.entriesOf id).drop (2 ^ 63 - 1)).filter (fun e => sqlInt number ≤ sqlInt e.number) =
      ((st.entriesOf id).drop (2 ^ 63 - 1)).filter (fun e => number.toNat ≤ e.number.toNat) := by
    refine List.filter_congr fun e he => decide_eq_decide.2 ?_
    rw [sqlInt_of_le h, sqlInt_of_le (le_of_mem_drop hlog he)]
    omega
  have hplace : 2 ^ 63 - 1 + (number.toNat - (2 ^ 63 - 1 + 1)) = number.toNat - 1 := by omega
  rw [fetchEntries_eq hlog, hlow, hhigh, filter_eq_drop (hlog.map_drop _), List.drop_drop, hplace]

/-- The page that was asked for is returned exactly if the numbers are in range. -/
theorem isPage_fetchEntries_iff (hnumber : 1 ≤ number.toNat) (hlimit : 1 ≤ limit) :
    IsPage (·.number.toNat) (st.entriesOf id) number.toNat limit (st.fetchEntries id number limit) ↔
      InRange number.toNat limit (st.entriesOf id).length := by
  rw [isPage_iff hlog hnumber, InRange]
  split_ifs with h
  · rw [fetchEntries_of_lt hlog h, List.drop_take, List.take_take, List.take_eq_take_iff, List.length_drop]
    omega
  · rw [fetchEntries_of_le hlog (Nat.not_lt.1 h), List.take_append, List.append_right_eq_self,
      List.take_eq_nil_iff, List.length_drop, ← List.length_eq_zero_iff, List.length_take]
    omega

end Query

end RelayStore

/-! ## The answer -/

/-- In every state of the relay, a member is sent the entries that the store returns; and these are exactly
the stored ones from the number on that the request names, in order, without gaps and up to its limit, and
none if that is beyond the head, if and only if the numbers are in range. -/
theorem fetch_returns_page_iff (hr : Reachable World.Init (World.Step svc) w) {a : ArchiveRow}
    (ha : a ∈ w.store.archives) {payload : Bytes} {m : ArchiveFetch}
    (hm : decodeArchiveFetch payload = some m) :
    (∀ now ss keyHash, ss.archiveSession = some (a.id, keyHash) →
      (w.rate.allow (archiveRateKey a.id) svc.limits.rateLimitPerMinute now).1 = true →
      (handleMessage svc now ss ⟨.archiveFetch, payload⟩ w.store w.rate).replies =
        (w.store.fetchEntries a.id m.fromNumber m.limit.toNat).map fun e =>
          ⟨.archiveEntry, encodeArchiveEntry e.number e.hash e.ciphertext e.redacted⟩) ∧
    (IsPage (·.number.toNat) (w.store.entriesOf a.id) m.fromNumber.toNat m.limit.toNat
        (w.store.fetchEntries a.id m.fromNumber m.limit.toNat) ∧
      (a.headNumber < m.fromNumber → w.store.fetchEntries a.id m.fromNumber m.limit.toNat = []) ↔
      RelayStore.InRange m.fromNumber.toNat m.limit.toNat a.headNumber.toNat) := by
  have hw := World.numbered_of_reachable hr
  obtain ⟨⟨hfrom, hlimit, -⟩, -⟩ := decodeArchiveFetch_eq_some.1 hm
  have hiff := RelayStore.isPage_fetchEntries_iff (hw.numbered a ha) (UInt64.le_iff_toNat_le.1 hfrom) hlimit
  rw [hw.head a ha] at hiff
  refine ⟨fun now ss keyHash hsession hallowed => ?_, fun h => hiff.1 h.1, fun h => ⟨hiff.2 h, fun hbeyond => ?_⟩⟩
  · simp only [handleMessage, handleArchiveFetch, hsession, hm, hallowed, Bool.not_true, Bool.false_eq_true,
      if_false]
  · -- what is returned is stored and from the start on, and nothing is stored there
    refine List.eq_nil_iff_forall_not_mem.2 fun e he => ?_
    obtain ⟨hmem, hle⟩ := (hiff.2 h).stored e he
    have hbound := (Pages.number_bounds (hw.numbered a ha) hmem).2
    rw [hw.head a ha] at hbound
    have := UInt64.lt_iff_toNat_lt.1 hbeyond
    omega

def sampleAppended : World := sampleEvents.foldl (World.step sampleService) sampleWorld

theorem reachable_sampleAppended : Reachable World.Init (World.Step sampleService) sampleAppended :=
  reachable_foldl World.step_step (.start ⟨rfl, rfl, rfl, rfl, fun _ => rfl, rfl, rfl⟩) sampleEvents

/-- Two more appends, each after the head that the one before left. -/
def sampleLog : World :=
  let first := byteSum (archiveEntryHashInput sampleArchive 1 (Archive.genesisHash byteSum sampleArchive) [7, 7, 7])
  let second := byteSum (archiveEntryHashInput sampleArchive 2 first [8])
  [Event.message 1 104 ⟨.archiveAppend, writeU64 1 ++ writeBlob first.1 ++ writeBlob [8]⟩,
    .message 1 105 ⟨.archiveAppend, writeU64 2 ++ writeBlob second.1 ++ writeBlob [9]⟩].foldl
      (World.step sampleService) sampleAppended

/-- The second of three entries is a page of its own. -/
theorem fetch_returns_page_iff_sample :
    (sampleLog.store.entriesOf sampleArchive).map (·.number) = [1, 2, 3] ∧
      ∀ a ∈ sampleLog.store.archives, IsPage (·.number.toNat) (sampleLog.store.entriesOf a.id) 2 1
        (sampleLog.store.fetchEntries a.id 2 1) := by
  have hr : Reachable World.Init (World.Step sampleService) sampleLog :=
    reachable_foldl World.step_step reachable_sampleAppended _
  refine ⟨by decide +kernel, fun a ha => ?_⟩
  have hm : decodeArchiveFetch (encodeArchiveFetch ⟨2, 1⟩) = some ⟨2, 1⟩ :=
    decodeArchiveFetch_eq_some.2 ⟨⟨by decide, by decide, by decide⟩, rfl⟩
  exact ((fetch_returns_page_iff hr ha hm).2.2 (.inr (by decide))).1

/-- A start of `2 ^ 63` is beyond the head, and yet the first entry is returned. -/
theorem start_beyond_head_returned :
    Reachable World.Init (World.Step sampleService) sampleAppended ∧
      decodeArchiveFetch (encodeArchiveFetch ⟨9223372036854775808, 1⟩) = some ⟨9223372036854775808, 1⟩ ∧
      sampleAppended.store.archives.map (fun a => (a.id, a.headNumber)) = [(sampleArchive, 1)] ∧
      (sampleAppended.store.fetchEntries sampleArchive 9223372036854775808 1).map (·.number) = [1] ∧
      (sampleAppended.sessions 1).map (fun ss => (handleMessage sampleService 104 ss
        ⟨.archiveFetch, encodeArchiveFetch ⟨9223372036854775808, 1⟩⟩ sampleAppended.store
        sampleAppended.rate).replies.map (·.type)) = some [.archiveEntry] := by
  refine ⟨reachable_sampleAppended, ?_, by decide +kernel, by decide +kernel, by decide +kernel⟩
  exact decodeArchiveFetch_eq_some.2 ⟨⟨by decide, by decide, by decide⟩, rfl⟩

end PqSuite.Relay
