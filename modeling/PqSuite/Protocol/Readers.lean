import Mathlib.Data.List.Forall2
import PqSuite.Lib.Reader
import PqSuite.Protocol.Wire

/-!
# Readers of the byte format

The functions of `protocol.cpp` that take a field off the front of a buffer, as readers, and what each
of them takes of what its writer wrote. A parser that must use up its buffer is `whole` of a reader.
Each of these readers is exact: it takes nothing but what its writer writes of the value it returns.
-/

namespace PqSuite.Reader

variable {α : Type} {data : Bytes}

def u32 : Reader UInt8 UInt32 := readU32
def u64 : Reader UInt8 UInt64 := readU64

def blob (max : ℕ) : Reader UInt8 Bytes := (readBlob · max)

/-- What `r` reads, if nothing is left over. -/
def whole (r : Reader UInt8 α) (data : Bytes) : Option α :=
  match r.run data with
  | some (a, []) => some a
  | _ => none

theorem reads_u32 (v : UInt32) : Reads u32 (writeU32 v) v := readU32_writeU32 v

theorem reads_u64 (v : UInt64) : Reads u64 (writeU64 v) v := readU64_writeU64 v

theorem reads_blob {max : ℕ} {b : Bytes} (hmax : b.length ≤ max) (hlt : max < 2 ^ 32) :
    Reads (blob max) (writeBlob b) b :=
  fun rest => readBlob_writeBlob hmax (by omega) rest

theorem reads_blobs {max : ℕ} {bs : List Bytes} (hmax : ∀ b ∈ bs, b.length ≤ max)
    (hlt : max < 2 ^ 32) : Reads (many bs.length (blob max)) (bs.map writeBlob).flatten bs := by
  refine reads_many (List.forall₂_map_left_iff.2 ?_)
  exact List.forall₂_same.2 fun b hb => reads_blob (hmax b hb) hlt

/-! ## Nothing else is taken -/

theorem exact_u32 : Exact u32 (fun _ => True) writeU32 := by
  intro bytes v rest
  rw [true_and]
  constructor
  · intro h
    match bytes, h with
    | a :: b :: c :: d :: tail, h =>
      obtain ⟨rfl, rfl⟩ := Prod.mk.inj (Option.some.inj h)
      have ha := a.toNat_lt
      have hb := b.toNat_lt
      have hc := c.toNat_lt
      have hd := d.toNat_lt
      simp only [writeU32, List.cons_append, List.nil_append, List.cons.injEq, and_true]
      -- a byte of the integer is a digit of its value to the base 256
      refine ⟨?_, ?_, ?_, ?_⟩ <;> apply UInt8.toNat_inj.1
      · rw [toNat_shiftRight_toUInt8' _ 24 (by decide)]
        simp only [UInt32.toNat_ofNat', UInt32.reduceToNat]
        omega
      · rw [toNat_shiftRight_toUInt8' _ 16 (by decide)]
        simp only [UInt32.toNat_ofNat', UInt32.reduceToNat]
        omega
      · rw [toNat_shiftRight_toUInt8' _ 8 (by decide)]
        simp only [UInt32.toNat_ofNat', UInt32.reduceToNat]
        omega
      · simp only [UInt32.toNat_ofNat', UInt32.toNat_toUInt8]
        omega
  · rintro rfl
    exact readU32_writeU32 v rest

theorem writeU64_of_halves (hi lo : UInt32) :
    writeU64 (UInt64.ofNat (hi.toNat * 4294967296 + lo.toNat)) = writeU32 hi ++ writeU32 lo := by
  have hhi := hi.toNat_lt
  have hlo := lo.toNat_lt
  simp only [writeU64, writeU32, List.cons_append, List.nil_append, List.cons.injEq, and_true]
  refine ⟨?_, ?_, ?_, ?_, ?_, ?_, ?_, ?_⟩ <;> apply UInt8.toNat_inj.1
  all_goals
    first
    | rw [toNat_shiftRight_toUInt8 _ _ (by decide), toNat_shiftRight_toUInt8' _ _ (by decide)]
    | rw [toNat_shiftRight_toUInt8 _ _ (by decide)]
    | skip
  all_goals
    simp only [UInt64.toNat_ofNat', UInt32.toNat_toUInt8, UInt64.toNat_toUInt8,
      UInt64.reduceToNat, UInt32.reduceToNat]
    omega

section bind

variable {β : Type} {m : β} {bytes : Bytes}

theorem readU32_bind {f : UInt32 × Bytes → Option β} :
    (readU32 bytes >>= f) = some m ↔ ∃ v rest, bytes = writeU32 v ++ rest ∧ f (v, rest) = some m :=
  exact_u32.bind_eq_some.trans (by simp only [true_and])

theorem exact_u64 : Exact u64 (fun _ => True) writeU64 := by
  intro bytes v rest
  rw [true_and]
  constructor
  · intro h
    change readU64 bytes = _ at h
    simp only [readU64, readU32_bind] at h
    obtain ⟨hi, r, rfl, lo, r', rfl, h⟩ := h
    obtain ⟨rfl, rfl⟩ := Prod.mk.inj (Option.some.inj h)
    rw [writeU64_of_halves, List.append_assoc]
  · rintro rfl
    exact readU64_writeU64 v rest

theorem readU64_bind {f : UInt64 × Bytes → Option β} :
    (readU64 bytes >>= f) = some m ↔ ∃ v rest, bytes = writeU64 v ++ rest ∧ f (v, rest) = some m :=
  exact_u64.bind_eq_some.trans (by simp only [true_and])

theorem exact_blob {max : ℕ} (hmax : max < 2 ^ 32) :
    Exact (blob max) (·.length ≤ max) writeBlob := by
  intro bytes b rest
  constructor
  · intro h
    change readBlob bytes max = _ at h
    simp only [readBlob, readU32_bind] at h
    obtain ⟨len, r, rfl, h⟩ := h
    split_ifs at h with hlen
    unfold readBytes at h
    split_ifs at h with hfits
    obtain ⟨rfl, rfl⟩ := Prod.mk.inj (Option.some.inj h)
    have hb : (r.take len.toNat).length = len.toNat := List.length_take_of_le hfits
    refine ⟨by omega, ?_⟩
    rw [writeBlob, hb, UInt32.ofNat_toNat, List.append_assoc, List.take_append_drop]
  · rintro ⟨hb, rfl⟩
    exact readBlob_writeBlob hb (by omega) rest

theorem readBlob_bind {max : ℕ} (hmax : max < 2 ^ 32) {f : Bytes × Bytes → Option β} :
    (readBlob bytes max >>= f) = some m ↔
      ∃ b rest, b.length ≤ max ∧ bytes = writeBlob b ++ rest ∧ f (b, rest) = some m :=
  (exact_blob hmax).bind_eq_some

end bind

theorem Reads.whole_eq {r : Reader UInt8 α} {a : α} (h : Reads r data a) : whole r data = some a := by
  rw [whole, h.run_eq]

theorem whole_eq_some {r : Reader UInt8 α} {a : α} (h : whole r data = some a) :
    r.run data = some (a, []) := by
  unfold whole at h
  split at h
  · next a' hrun => rw [hrun, Option.some.inj h]
  · cases h

/-- What a parser that uses up its buffer was given. -/
theorem Takes.whole {r : Reader UInt8 α} {W : α → Bytes → Prop} {a : α} (h : Takes r W)
    (hwhole : whole r data = some a) : W a data := by
  obtain ⟨part, rfl, hW⟩ := h data a [] (whole_eq_some hwhole)
  rwa [List.append_nil]

theorem whole_signed {max max' : ℕ} (hmax : max < 2 ^ 32) (hmax' : max' < 2 ^ 32) {raw body signature : Bytes}
    (h : whole (do
      let body ← blob max
      let signature ← blob max'
      return (body, signature)) raw = some (body, signature)) :
    raw = writeBlob body ++ writeBlob signature ∧ body.length ≤ max ∧ signature.length ≤ max' := by
  have hpair := ((exact_blob hmax).pair (exact_blob hmax')).takes.whole h
  exact ⟨hpair.2, hpair.1⟩

/-- A number and as many blobs of at most `max` bytes. -/
theorem run_blobs {max n : ℕ} (hmax : max < 2 ^ 32) {β : Type} {f : List Bytes → Reader UInt8 β} {xs rest : Bytes}
    {b : β} (hrun : (many n (blob max) >>= f).run xs = some (b, rest)) :
    ∃ bs mid, bs.length = n ∧ (∀ b ∈ bs, b.length ≤ max) ∧
      xs = (bs.map writeBlob).flatten ++ mid ∧ (f bs).run mid = some (b, rest) := by
  obtain ⟨bs, mid, ⟨hlen, hbs⟩, hxs, hrun⟩ := ((exact_blob hmax).many n).of_run hrun
  exact ⟨bs, mid, hlen, hbs, by rw [hxs, List.flatMap_def], hrun⟩

end PqSuite.Reader
