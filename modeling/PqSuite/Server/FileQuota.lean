import Mathlib.Algebra.Order.BigOperators.Group.Finset
import Mathlib.Algebra.Order.BigOperators.Group.List
import PqSuite.Server.FileDownloads

/-!
# The storage of the file server

The reserved bytes are at all times those of the registered transfers and of the uploads under way, so
that nothing is taken off that was not added, and they are within the quota unless the server started
with more. A restart counts again from what is on disk, and comes to the same costs.
-/

namespace PqSuite.FileServer

open FileProtocol

variable {n quota : ℕ} {w w' : World n} {e : Event n} {c : Conn}

namespace World

def registeredBytes (w : World n) : ℕ := (w.transfers.map (·.reservedBytes)).sum

def uploadBytes (w : World n) : ℕ := ∑ i, (w.conns i).reservation

def taken (w : World n) : Event n → ℕ
  | .abort i => match w.conns i with | .aborting _ reserve => reserve | _ => 0
  | .finish i =>
    match w.conns i with
    | .confirmed t => ((w.findTransfer t.id).map (·.reservedBytes)).getD 0
    | _ => 0
  | .expire now => ((w.transfers.filter (·.expired now)).map (·.reservedBytes)).sum
  | _ => 0

/-- The count is right, and within the quota unless it was not at the start. -/
structure Balanced (quota : ℕ) (w : World n) : Prop where
  sum : w.reserved = w.registeredBytes + w.uploadBytes
  quota : w.reserved ≤ max quota w.startup

end World

/-! ## The count -/

theorem uploadBytes_setConn (i : Fin n) (c : Conn) :
    (w.setConn i c).uploadBytes + (w.conns i).reservation = w.uploadBytes + c.reservation := by
  have hrest : ∑ j ∈ Finset.univ.erase i, ((w.setConn i c).conns j).reservation =
      ∑ j ∈ Finset.univ.erase i, (w.conns j).reservation := by
    refine Finset.sum_congr rfl fun j hj => ?_
    rw [setConn_conns_of_ne (Finset.ne_of_mem_erase hj)]
  rw [World.uploadBytes, World.uploadBytes, ← Finset.add_sum_erase _ _ (Finset.mem_univ i), hrest,
    ← Finset.add_sum_erase _ _ (Finset.mem_univ i), setConn_conns_self]
  omega

theorem reservation_le (i : Fin n) : (w.conns i).reservation ≤ w.uploadBytes :=
  Finset.single_le_sum (f := fun j => (w.conns j).reservation) (fun _ _ => Nat.zero_le _)
    (Finset.mem_univ i)

theorem registeredBytes_setDownloading (id : Bytes) (downloading : Bool) :
    (w.setDownloading id downloading).registeredBytes = w.registeredBytes := by
  rw [World.registeredBytes, World.setDownloading, List.map_map]
  refine congrArg List.sum (List.map_congr_left fun t _ => ?_)
  show (if t.id = id then { t with downloading } else t).reservedBytes = t.reservedBytes
  split_ifs <;> rfl

/-- The sum over a list with distinct keys, without one row. -/
theorem sum_filter_id {l : List StoredTransfer} (hids : (l.map (·.id)).Nodup) {t : StoredTransfer}
    (ht : t ∈ l) : ((l.filter (·.id ≠ t.id)).map (·.reservedBytes)).sum + t.reservedBytes =
      (l.map (·.reservedBytes)).sum := by
  induction l with
  | nil => exact absurd ht List.not_mem_nil
  | cons r l ih =>
    rw [List.map_cons, List.nodup_cons] at hids
    rcases List.mem_cons.1 ht with rfl | hmem
    · have hrest : l.filter (·.id ≠ t.id) = l := List.filter_eq_self.2 fun s hs =>
        decide_eq_true fun heq => hids.1 (heq ▸ List.mem_map_of_mem hs)
      rw [List.filter_cons_of_neg (by simp), hrest, List.map_cons, List.sum_cons, Nat.add_comm]
    · have hne : r.id ≠ t.id := fun heq => hids.1 (heq ▸ List.mem_map_of_mem hmem)
      rw [List.filter_cons_of_pos (by simpa using hne), List.map_cons, List.sum_cons, List.map_cons,
        List.sum_cons, ← ih hids.2 hmem, Nat.add_assoc]

theorem sum_filter_not (l : List StoredTransfer) (p : StoredTransfer → Bool) :
    ((l.filter fun t => !p t).map (·.reservedBytes)).sum + ((l.filter p).map (·.reservedBytes)).sum =
      (l.map (·.reservedBytes)).sum := by
  induction l with
  | nil => rfl
  | cons t l ih =>
    cases ht : p t with
    | true =>
      simp only [List.filter_cons, ht, Bool.not_true, Bool.false_eq_true, if_false, if_true, List.map_cons,
        List.sum_cons]
      omega
    | false =>
      simp only [List.filter_cons, ht, Bool.not_false, Bool.false_eq_true, if_false, if_true,
        List.map_cons, List.sum_cons]
      omega

theorem taken_le (h : w.Balanced quota) (e : Event n) : w.taken e ≤ w.reserved := by
  rw [h.sum]
  cases e with
  | abort i =>
    have hle : (w.conns i).reservation ≤ w.uploadBytes := reservation_le i
    simp only [World.taken]
    split
    · rename_i dir reserve hi
      rw [hi] at hle
      exact le_trans hle (Nat.le_add_left _ _)
    · exact Nat.zero_le _
  | finish i =>
    simp only [World.taken]
    split
    · rename_i t hi
      cases hrow : w.findTransfer t.id with
      | none => exact Nat.zero_le _
      | some row =>
        have hmem : row.reservedBytes ∈ w.transfers.map (·.reservedBytes) :=
          List.mem_map_of_mem (Rows.lookup_eq_some hrow).1
        exact le_trans (List.single_le_sum (fun _ _ => Nat.zero_le _) _ hmem) (Nat.le_add_right _ _)
    · exact Nat.zero_le _
  | expire now =>
    have hsum := sum_filter_not w.transfers (·.expired now)
    simp only [World.taken, World.registeredBytes]
    omega
  | _ => exact Nat.zero_le _

theorem sum_setConn {i : Fin n}
    (h : w.reserved + (w.conns i).reservation = w.registeredBytes + w.uploadBytes + c.reservation) :
    (w.setConn i c).reserved = (w.setConn i c).registeredBytes + (w.setConn i c).uploadBytes := by
  have hsum := uploadBytes_setConn (w := w) i c
  show w.reserved = w.registeredBytes + (w.setConn i c).uploadBytes
  omega

theorem World.Balanced.moves (h : w.Balanced quota) {i : Fin n}
    (hsame : c.reservation = (w.conns i).reservation) : (w.setConn i c).Balanced quota := by
  refine ⟨sum_setConn ?_, h.quota⟩
  rw [hsame, h.sum]

theorem World.Balanced.effect (h : w.Balanced quota) (horderly : w.Orderly) (he : Effect quota w e w') :
    w'.Balanced quota := by
  have hsum := h.sum
  have hquota := h.quota
  cases he with
  | keep => exact h
  | moves hsame => exact h.moves hsame.reservation
  | @writes e i c id f hid hsame hf =>
    have hfiles : (w.updateDir id f).Balanced quota := ⟨h.sum, h.quota⟩
    exact hfiles.moves hsame.reservation
  | @reserves e i header bytes hi hbytes hroom =>
    refine ⟨sum_setConn ?_, hroom.trans (le_max_left _ _)⟩
    show w.reserved + _ + (w.conns i).reservation = w.registeredBytes + w.uploadBytes + _
    rw [hi, h.sum]
    rfl
  | @makes e i id header bytes hi hnew =>
    have hfiles : World.Balanced quota { w with disk := w.disk ++
        [{ name := id, reservation := storageCost header bytes.length }] } := ⟨h.sum, h.quota⟩
    refine hfiles.moves ?_
    show _ = (w.conns i).reservation
    rw [hi]
    rfl
  | @registers e i id header bytes received now hi =>
    have hdir : (w.conns i).dir = some id := by rw [hi]; rfl
    have hkept : w.transfers.filter (·.id ≠ id) = w.transfers := List.filter_eq_self.2 fun t ht =>
      decide_eq_true fun heq => nomatch horderly.owned.exclusive .registry (.conn i) id ⟨t, ht, heq⟩ hdir
    refine ⟨sum_setConn ?_, h.quota⟩
    show w.reserved + (w.conns i).reservation = ((w.transfers.filter _ ++ [_]).map _).sum + w.uploadBytes + 0
    rw [hi, hkept, List.map_append, List.sum_append, List.map_singleton, List.sum_singleton, h.sum]
    show _ + storageCost header bytes.length = w.registeredBytes + storageCost header bytes.length + _ + 0
    omega
  | @aborts e i dir reserve hi =>
    have hle : (w.conns i).reservation ≤ w.uploadBytes := reservation_le i
    rw [hi] at hle
    have hrest : w.reserved - reserve + reserve = w.registeredBytes + w.uploadBytes := by
      have hreserve : reserve ≤ w.uploadBytes := hle
      omega
    refine ⟨sum_setConn ?_, (Nat.sub_le _ _).trans h.quota⟩
    show w.reserved - reserve + (w.conns i).reservation = w.registeredBytes + w.uploadBytes + _
    rw [hi]
    cases dir <;> exact hrest
  | @removes e i dir gone hi =>
    have hidle : Conn.idle.reservation = (w.conns i).reservation := by rw [hi]; rfl
    cases gone with
    | false => exact h.moves hidle
    | true =>
      have hfiles : (w.removeDir dir).Balanced quota := ⟨h.sum, h.quota⟩
      exact hfiles.moves hidle
  | @claims e i t hi ht hfree =>
    have hmarked : (w.setDownloading t.id true).Balanced quota :=
      ⟨by rw [registeredBytes_setDownloading]; exact h.sum, h.quota⟩
    refine hmarked.moves ?_
    show _ = (w.conns i).reservation
    rw [hi]
    rfl
  | @finishes i t hi =>
    have hconfirmed : (w.conns i).reservation = 0 := by rw [hi]; rfl
    obtain ⟨row, hrow, hid, -⟩ := horderly.downloads.claimed i t.id (by rw [hi]; rfl)
    have hfind : w.findTransfer t.id = some row := by
      rw [← hid]
      exact Rows.lookup_of_mem horderly.owned.ids hrow
    have hrest := sum_filter_id horderly.owned.ids hrow
    rw [World.finish, hfind, ← hid]
    refine ⟨sum_setConn ?_, (Nat.sub_le _ _).trans h.quota⟩
    show w.reserved - row.reservedBytes + (w.conns i).reservation =
      ((w.transfers.filter (·.id ≠ row.id)).map (·.reservedBytes)).sum + w.uploadBytes + 0
    rw [World.registeredBytes] at hsum
    omega
  | @releases i id hi =>
    have hmarked : (w.setDownloading id false).Balanced quota :=
      ⟨by rw [registeredBytes_setDownloading]; exact h.sum, h.quota⟩
    refine hmarked.moves ?_
    show _ = (w.conns i).reservation
    rw [hi]
    rfl
  | @expires now hcleaner =>
    have hrest := sum_filter_not w.transfers (·.expired now)
    simp only [World.expire, expireLoop_eq]
    refine ⟨?_, (Nat.sub_le _ _).trans h.quota⟩
    show w.reserved - _ = ((w.transfers.filter (!·.expired now)).map (·.reservedBytes)).sum + w.uploadBytes
    rw [World.registeredBytes] at hsum
    omega
  | cleanerWrites hdir => exact ⟨h.sum, h.quota⟩
  | cleans gone hcleaner => cases gone <;> exact ⟨h.sum, h.quota⟩
  | restarts =>
    simp only [World.restart, restoreTransfers_eq _ _ _ horderly.owned.names]
    refine ⟨?_, le_max_right _ _⟩
    show _ = _ + ∑ _ : Fin n, 0
    rw [Finset.sum_const_zero]
    rfl

/-! ## What is on disk -/

/-- Nothing can follow the bytes of a header in those of another. -/
theorem serializeFileHeader_append {header header' : FileHeader} {rest : Bytes} (h : header.Valid)
    (h' : header'.Valid) (heq : serializeFileHeader header' ++ rest = serializeFileHeader header) :
    rest = [] := by
  rw [← List.append_nil (serializeFileHeader header)] at heq
  simp only [serializeFileHeader, serializeHeaderPublicFields, List.append_assoc] at heq
  obtain ⟨-, heq⟩ := writeU32_append_inj heq
  obtain ⟨-, heq⟩ := writeU32_append_inj heq
  obtain ⟨-, heq⟩ := writeU64_append_inj heq
  obtain ⟨-, heq⟩ := writeU32_append_inj heq
  obtain ⟨-, heq⟩ := writeU32_append_inj heq
  have hsmall : ∀ {b : Bytes} {max : ℕ}, b.length ≤ max → max < 2 ^ 32 → b.length < 2 ^ 32 :=
    fun hb hmax => Nat.lt_of_le_of_lt hb hmax
  obtain ⟨-, heq⟩ := writeBlob_append_inj (hsmall h'.1 (by decide)) (hsmall h.1 (by decide)) heq
  obtain ⟨-, heq⟩ := writeBlob_append_inj (hsmall h'.2.1 (by decide)) (hsmall h.2.1 (by decide)) heq
  exact (writeBlob_append_inj (hsmall h'.2.2 (by decide)) (hsmall h.2.2 (by decide)) heq).2

/-- A beginning of a header's bytes is not another header. -/
theorem deserializeFileHeader_take {bytes : Bytes} {header header' : FileHeader} {k : ℕ}
    (h : deserializeFileHeader bytes = some header)
    (h' : deserializeFileHeader (bytes.take k) = some header') : bytes.take k = bytes := by
  obtain ⟨hvalid, hbytes⟩ := deserializeFileHeader_eq_some.1 h
  obtain ⟨hvalid', htake⟩ := deserializeFileHeader_eq_some.1 h'
  have hrest : bytes.drop k = [] := by
    refine serializeFileHeader_append hvalid hvalid' ?_
    rw [htake, hbytes, List.take_append_drop]
  rw [← List.take_append_drop k bytes, hrest, List.append_nil, List.take_take, min_self]

namespace World

/-- The directory of an upload under way is that of its reservation, and every header is that of an
upload. -/
structure Accounted (w : World n) : Prop where
  uploads : ∀ i id, (w.conns i).uploads = some id → ∀ d ∈ w.disk, d.name = id →
    d.reservation = (w.conns i).reservation
  faithful : ∀ d ∈ w.disk, d.Faithful

end World

theorem uploads_dir {id : Bytes} (h : c.uploads = some id) : c.dir = some id := by
  cases c with
  | opened | receiving | aborting => exact h
  | _ => exact nomatch h

theorem uploads_setConn {i j : Fin n} {id : Bytes} (h : ((w.setConn i c).conns j).uploads = some id) :
    (j = i ∧ c.uploads = some id) ∨ (j ≠ i ∧ (w.conns j).uploads = some id) := by
  by_cases hj : j = i
  · subst hj
    rw [setConn_conns_self] at h
    exact .inl ⟨rfl, h⟩
  · rw [setConn_conns_of_ne hj] at h
    exact .inr ⟨hj, h⟩

namespace World.Accounted

variable {c : Conn}

/-- A connection ends its upload, and directories may go. -/
theorem ends (h : w.Accounted) {i : Fin n} (hc : c.uploads = none) {v : World n}
    (hconns : v.conns = w.conns) (hdisk : ∀ d ∈ v.disk, d ∈ w.disk) : (v.setConn i c).Accounted := by
  refine ⟨fun j id hj d hd hname => ?_, fun d hd => h.faithful d (hdisk d hd)⟩
  rcases uploads_setConn hj with ⟨-, hnone⟩ | ⟨hne, hold⟩
  · rw [hc] at hnone
    exact nomatch hnone
  · rw [setConn_conns_of_ne hne]
    rw [hconns] at hold ⊢
    exact h.uploads j id hold d (hdisk d hd) hname

theorem moves (h : w.Accounted) {i : Fin n} (hsame : SameClaims (w.conns i) c) :
    (w.setConn i c).Accounted := by
  refine ⟨fun j id hj d hd hname => ?_, h.faithful⟩
  rcases uploads_setConn hj with ⟨rfl, hc⟩ | ⟨hne, hold⟩
  · rw [setConn_conns_self, hsame.reservation]
    exact h.uploads j id (hsame.uploads ▸ hc) d hd hname
  · rw [setConn_conns_of_ne hne]
    exact h.uploads j id hold d hd hname

theorem rewrites (h : w.Accounted) {id : Bytes} {f : Directory → Directory} (hf : Rewrites c id f)
    (hc : c.Sound)
    (hreservation : ∀ header bytes, c = .opened id header bytes → ∀ d ∈ w.disk, d.name = id →
      d.reservation = storageCost header bytes.length) : (w.updateDir id f).Accounted := by
  have hrow : ∀ d ∈ (w.updateDir id f).disk, ∃ d₀ ∈ w.disk,
      (d₀.name = id ∧ d = f d₀) ∨ (d₀.name ≠ id ∧ d = d₀) := by
    intro d hd
    obtain ⟨d₀, hd₀, rfl⟩ := List.mem_map.1 hd
    by_cases hid : d₀.name = id
    · exact ⟨d₀, hd₀, .inl ⟨hid, if_pos hid⟩⟩
    · exact ⟨d₀, hd₀, .inr ⟨hid, if_neg hid⟩⟩
  refine ⟨fun j id' hj d hd hname => ?_, fun d hd bytes header hbytes hheader => ?_⟩
  · obtain ⟨d₀, hd₀, ⟨-, rfl⟩ | ⟨-, rfl⟩⟩ := hrow d hd
    · rw [hf.reservation]
      exact h.uploads j id' hj d₀ hd₀ (hf.name d₀ ▸ hname)
    · exact h.uploads j id' hj _ hd₀ hname
  · obtain ⟨d₀, hd₀, ⟨hid, rfl⟩ | ⟨-, rfl⟩⟩ := hrow d hd
    · rw [hf.reservation]
      rcases hf.header d₀ with hsame | hnone | ⟨header₀, bytes₀, k, hopened, hcut⟩
      · exact h.faithful d₀ hd₀ bytes header (hsame ▸ hbytes) hheader
      · rw [hnone] at hbytes
        exact nomatch hbytes
      · -- of a header that is cut off nothing can be read
        rw [hopened] at hc
        obtain rfl := Option.some.inj (hcut.symm.trans hbytes)
        have hwhole := deserializeFileHeader_take hc hheader
        rw [hwhole] at hheader ⊢
        obtain rfl := Option.some.inj (hc.symm.trans hheader)
        exact hreservation header₀ bytes₀ hopened d₀ hd₀ hid
    · exact h.faithful _ hd₀ bytes header hbytes hheader

theorem effect (h : w.Accounted) (horderly : w.Orderly) (he : Effect quota w e w') : w'.Accounted := by
  cases he with
  | keep => exact h
  | moves hsame => exact h.moves hsame
  | @writes e i c id f hid hsame hf =>
    refine (h.rewrites hf (horderly.sound i) fun header bytes hi d hd hname => ?_).moves hsame
    have hupload := h.uploads i id (by rw [hi]; rfl) d hd hname
    rwa [hi] at hupload
  | reserves hi hbytes hroom => exact h.ends rfl rfl fun _ hd => hd
  | @makes e i id header bytes hi hnew =>
    refine ⟨fun j id' hj d hd hname => ?_, fun d hd => ?_⟩
    · rcases uploads_setConn hj with ⟨rfl, hc⟩ | ⟨hne, hold⟩
      · obtain rfl := Option.some.inj hc
        rw [setConn_conns_self]
        rcases List.mem_append.1 hd with hd | hd
        · exact absurd hname (hnew d hd)
        · rw [List.mem_singleton.1 hd]
          rfl
      · rw [setConn_conns_of_ne hne]
        rcases List.mem_append.1 hd with hd | hd
        · exact h.uploads j id' hold d hd hname
        · -- another upload's directory was there before
          obtain ⟨d', hd', hname'⟩ := horderly.owned.onDisk (.conn j) id' (uploads_dir hold)
          rw [List.mem_singleton.1 hd] at hname
          exact absurd (hname'.trans hname.symm) (hnew d' hd')
    · rcases List.mem_append.1 hd with hd | hd
      · exact h.faithful d hd
      · rw [List.mem_singleton.1 hd]
        exact fun _ _ hnone => by cases hnone
  | registers hi => exact h.ends rfl rfl fun _ hd => hd
  | @aborts e i dir reserve hi => exact h.ends (by cases dir <;> rfl) rfl fun _ hd => hd
  | removes gone hi =>
    cases gone with
    | false => exact h.ends rfl rfl fun _ hd => hd
    | true => exact h.ends rfl rfl fun _ hd => (List.mem_filter.1 hd).1
  | claims hi ht hfree => exact h.ends rfl rfl fun _ hd => hd
  | finishes hi =>
    unfold World.finish
    split <;> exact h.ends rfl rfl fun _ hd => hd
  | releases hi => exact h.ends rfl rfl fun _ hd => hd
  | expires hcleaner => exact ⟨h.uploads, h.faithful⟩
  | @cleanerWrites e dir file hdir =>
    exact h.rewrites (rewrites_unlink .idle dir file) trivial fun _ _ hopened => (by cases hopened)
  | cleans gone hcleaner =>
    cases gone with
    | false => exact ⟨h.uploads, h.faithful⟩
    | true =>
      exact ⟨fun j id hj d hd => h.uploads j id hj d (List.mem_filter.1 hd).1,
        fun d hd => h.faithful d (List.mem_filter.1 hd).1⟩
  | restarts =>
    simp only [World.restart, restoreTransfers_eq _ _ _ horderly.owned.names]
    refine ⟨fun _ _ hj => (by cases hj), fun d hd => ?_⟩
    obtain ⟨d', hd', hkept⟩ := List.mem_filterMap.1 hd
    exact (h.faithful d' hd').kept hkept

end World.Accounted

/-! ## Runs -/

/-- What an event takes off is what the count goes down by. -/
theorem reserved_step (h : w.Balanced quota) (hstep : World.Step quota w e w') (htaken : w.taken e ≠ 0) :
    w'.reserved + w.taken e = w.reserved := by
  have hle := taken_le h e
  obtain ⟨reply, hnext⟩ := hstep
  suffices hless : w'.reserved = w.reserved - w.taken e by omega
  cases e with
  | abort i =>
    simp only [World.next] at hnext
    split at hnext
    · rename_i dir reserve hi
      obtain ⟨rfl, -⟩ := Prod.mk.inj (Option.some.inj hnext)
      simp only [World.taken, hi]
      rfl
    · cases hnext
  | finish i =>
    simp only [World.next] at hnext
    split at hnext
    · rename_i t hi
      obtain ⟨rfl, -⟩ := Prod.mk.inj (Option.some.inj hnext)
      simp only [World.taken, hi, World.finish]
      cases w.findTransfer t.id <;> rfl
    · cases hnext
  | expire now =>
    simp only [World.next] at hnext
    split_ifs at hnext
    obtain ⟨rfl, -⟩ := Prod.mk.inj (Option.some.inj hnext)
    simp only [World.expire, expireLoop_eq, World.taken]
  | _ => exact absurd rfl htaken

/-- A directory that is complete and not too old is registered again with the cost of its upload. -/
theorem restart_registers (haccounted : w.Accounted) (hnames : (w.disk.map (·.name)).Nodup) {d : Directory}
    (hd : d ∈ w.disk) {now : Time} {age : Bytes → Time} {left : Bytes → Option (List FileName)}
    {header : FileHeader} {size : ℕ} (hcomplete : d.complete = some (header, size))
    (hage : age d.name ≤ transferTtl) :
    ⟨d.name, header, now - age d.name, d.reservation, false⟩ ∈ (w.restart now age left).transfers ∧
      d ∈ (w.restart now age left).disk := by
  have hcost : d.reservation = storageCost header size := by
    simp only [Directory.complete, Option.bind_eq_bind, Option.bind_eq_some_iff, Option.filter_eq_some_iff,
      Option.ite_none_right_eq_some, Option.some.injEq, Prod.mk.injEq] at hcomplete
    obtain ⟨bytes, ⟨hbytes, -⟩, header', hheader, -, rfl, rfl⟩ := hcomplete
    exact haccounted.faithful d hd bytes header' hbytes hheader
  have hrestored : d.restored now age =
      some ⟨d.name, header, now - age d.name, d.reservation, false⟩ := by
    rw [Directory.restored, hcomplete]
    simp only [hcost]
    exact if_neg (not_lt.2 hage)
  have hkept : d.kept now age left = some d := by rw [Directory.kept, hrestored]; rfl
  simp only [World.restart, restoreTransfers_eq now age left hnames]
  exact ⟨List.mem_filterMap.2 ⟨d, hd, hrestored⟩, List.mem_filterMap.2 ⟨d, hd, hkept⟩⟩

/-- Any other directory is not registered, and it is removed unless the removal fails. -/
theorem restart_removes (hnames : (w.disk.map (·.name)).Nodup) {d : Directory} (hd : d ∈ w.disk)
    {now : Time} {age : Bytes → Time} {left : Bytes → Option (List FileName)}
    (hother : d.complete = none ∨ age d.name > transferTtl) :
    (∀ t ∈ (w.restart now age left).transfers, t.id ≠ d.name) ∧
      (left d.name = none → ¬(w.restart now age left).OnDisk d.name) := by
  have hnone : d.restored now age = none := by
    unfold Directory.restored
    split
    · rfl
    · rename_i header size hcomplete
      refine if_pos (hother.resolve_left fun hnone => ?_)
      rw [hnone] at hcomplete
      cases hcomplete
  have hsame : ∀ d' ∈ w.disk, d'.name = d.name → d' = d := fun d' hd' hname =>
    List.inj_on_of_nodup_map hnames hd' hd hname
  simp only [World.restart, World.OnDisk, restoreTransfers_eq now age left hnames]
  refine ⟨fun t ht hid => ?_, fun hleft => ?_⟩
  · obtain ⟨d', hd', hrestored⟩ := List.mem_filterMap.1 ht
    rw [hsame d' hd' ((Directory.restored_id hrestored).symm.trans hid), hnone] at hrestored
    cases hrestored
  · rintro ⟨d', hd', hname⟩
    obtain ⟨d₀, hd₀, hkept⟩ := List.mem_filterMap.1 hd'
    rw [hsame d₀ hd₀ ((Directory.of_kept hkept).1.symm.trans hname)] at hkept
    simp [Directory.kept, hnone, Directory.removed, hleft] at hkept

namespace World

theorem accounted (h : Reach.Reachable Init (Step quota) w) : w.Balanced quota ∧ w.Accounted := by
  have hinv : w.Orderly ∧ w.Balanced quota ∧ w.Accounted := by
    refine h.invariant (P := fun w => w.Orderly ∧ w.Balanced quota ∧ w.Accounted) (fun w hinit => ?_) ?_
    · refine ⟨.init hinit, ?_⟩
      obtain ⟨disk, now, age, left, hnames, hfaithful, rfl⟩ := hinit
      simp only [restart, restoreTransfers_eq now age left hnames]
      refine ⟨⟨?_, le_max_right _ _⟩, fun _ _ hj => (by cases hj), fun d hd => ?_⟩
      swap
      · obtain ⟨d', hd', hkept⟩ := List.mem_filterMap.1 hd
        exact (hfaithful d' hd').kept hkept
      show _ = _ + ∑ _ : Fin n, 0
      rw [Finset.sum_const_zero]
      rfl
    · rintro w e w' ⟨horderly, hbalanced, haccounted⟩ ⟨reply, hnext⟩
      have heffect := effect_next hnext
      exact ⟨horderly.effect heffect, hbalanced.effect horderly heffect,
        haccounted.effect horderly heffect⟩
  exact hinv.2

/-- The reserved bytes are those of the registered transfers and of the uploads under way, and they are
within the quota if they were when the server started. A restart registers each complete directory that
is not too old with the cost its upload had, and removes any other where the disk lets it. -/
theorem storage_is_accounted (h : Reach.Reachable Init (Step quota) w) :
    w.reserved = w.registeredBytes + w.uploadBytes ∧
    (∀ e w', Step quota w e w' → w.taken e ≠ 0 → w'.reserved + w.taken e = w.reserved) ∧
    (w.startup ≤ quota → w.reserved ≤ quota) ∧
    ∀ now age left, ∀ d ∈ w.disk,
      (∀ header size, d.complete = some (header, size) → age d.name ≤ transferTtl →
        ⟨d.name, header, now - age d.name, d.reservation, false⟩ ∈ (w.restart now age left).transfers ∧
          d ∈ (w.restart now age left).disk) ∧
      (d.complete = none ∨ age d.name > transferTtl →
        (∀ t ∈ (w.restart now age left).transfers, t.id ≠ d.name) ∧
          (left d.name = none → ¬(w.restart now age left).OnDisk d.name)) := by
  obtain ⟨hbalanced, haccounted⟩ := accounted h
  have hnames := (orderly h).owned.names
  refine ⟨hbalanced.sum, fun e w' hstep htaken => reserved_step hbalanced hstep htaken, fun hstart => ?_,
    fun now age left d hd => ⟨fun header size hcomplete hage => ?_,
      fun hother => restart_removes hnames hd hother⟩⟩
  · exact hbalanced.quota.trans (max_le le_rfl hstart)
  · exact restart_registers haccounted hnames hd hcomplete hage

end World

def sampleStored : Option (World 2) := List.foldlM (World.after 1000) emptyServer sampleUpload

theorem sampleStored_reachable {w : World 2} (hw : sampleStored = some w) :
    Reach.Reachable World.Init (World.Step 1000) w :=
  Reach.reachable_foldlM (fun _ _ _ => step_after) (.start emptyServer_init) _ hw

/-- What the upload leaves on disk: one complete directory. -/
theorem sampleStored_disk {w : World 2} (hw : sampleStored = some w) : w.startup = 0 ∧
    ∃ d ∈ w.disk, d.name = sampleId ∧ d.complete = some (sampleHeader, sampleHeaderBytes.length) ∧
      d.reservation = storageCost sampleHeader sampleHeaderBytes.length := by
  have hstartup : sampleStored.map (·.startup) = some 0 := by decide +kernel
  have hdisk : (sampleStored.map (·.disk)).map
      (List.map fun d => (d.name, d.complete, d.reservation)) =
      some [(sampleId, some (sampleHeader, sampleHeaderBytes.length),
        storageCost sampleHeader sampleHeaderBytes.length)] := by decide +kernel
  rw [hw] at hstartup hdisk
  obtain ⟨d, hd, hfields⟩ := List.mem_map.1 (Option.some.inj hdisk ▸ List.mem_singleton_self _)
  simp only [Prod.mk.injEq] at hfields
  exact ⟨Option.some.inj hstartup, d, hd, hfields⟩

/-- The uploaded file is counted, and a server that starts again an hour later has it at the same cost. -/
theorem storage_is_accounted_sample : ∃ w, sampleStored = some w ∧
    w.reserved = w.registeredBytes + w.uploadBytes ∧ w.reserved ≤ 1000 ∧
    ⟨sampleId, sampleHeader, 5, storageCost sampleHeader sampleHeaderBytes.length, false⟩ ∈
      (w.restart 3605 (fun _ => 3600) fun _ => none).transfers := by
  have hrun : sampleStored.isSome = true := by decide +kernel
  obtain ⟨w, hw⟩ := Option.isSome_iff_exists.1 hrun
  obtain ⟨hstartup, d, hd, hname, hcomplete, hcost⟩ := sampleStored_disk hw
  obtain ⟨hsum, -, hquota, hrestart⟩ := World.storage_is_accounted (sampleStored_reachable hw)
  refine ⟨w, hw, hsum, hquota (by omega), ?_⟩
  rw [← hname, ← hcost]
  exact ((hrestart 3605 (fun _ => 3600) (fun _ => none) d hd).1 _ _ hcomplete (by decide)).1

/-- A server that starts again more than a day after the upload removes the directory, complete as it is. -/
theorem old_directory_removed : ∃ w, sampleStored = some w ∧
    Reach.Reachable World.Init (World.Step 1000) w ∧
    (∃ d ∈ w.disk, d.complete = some (sampleHeader, sampleHeaderBytes.length)) ∧
    (w.restart 86406 (fun _ => 86401) fun _ => none).transfers = [] ∧
    (w.restart 86406 (fun _ => 86401) fun _ => none).disk.map (·.name) = [] := by
  have hrun : sampleStored.isSome = true := by decide +kernel
  obtain ⟨w, hw⟩ := Option.isSome_iff_exists.1 hrun
  have hfacts : sampleStored.map (fun w => ((w.restart 86406 (fun _ => 86401) fun _ => none).transfers,
      (w.restart 86406 (fun _ => 86401) fun _ => none).disk.map (·.name))) = some ([], []) := by decide +kernel
  rw [hw] at hfacts
  obtain ⟨htransfers, hremoved⟩ := Prod.mk.inj (Option.some.inj hfacts)
  obtain ⟨-, d, hd, -, hcomplete, -⟩ := sampleStored_disk hw
  exact ⟨w, hw, sampleStored_reachable hw, ⟨d, hd, hcomplete⟩, htransfers, hremoved⟩

end PqSuite.FileServer
