import Mathlib.Data.List.Basic
import Mathlib.Tactic.Ring

/-!
# The byte format of `protocol.cpp`

Integers are written big-endian, a blob is its 32-bit length followed by its bytes, and a reader
returns what it read together with the bytes that are left. Each reader undoes its writer whatever
follows (`readU32_writeU32`, `readU64_writeU64`, `readBlob_writeBlob`), so a sequence of written
fields has one parse and can be compared field by field.
-/

namespace PqSuite

/-- `std::vector<uint8_t>`, and `std::string` where the text is only carried. -/
abbrev Bytes := List UInt8

/-- By name, since whether a list holds a byte string is decided in most modules. -/
instance : LawfulBEq Bytes := List.instLawfulBEq

/-- Seconds, of the unix clock or of a clock that only goes forward. -/
abbrev Time := Int

def ascii (s : String) : Bytes := s.toList.map fun c => UInt8.ofNat c.toNat

/-! ## Writers -/

def writeU32 (v : UInt32) : Bytes :=
  [(v >>> 24).toUInt8, (v >>> 16).toUInt8, (v >>> 8).toUInt8, v.toUInt8]

def writeU64 (v : UInt64) : Bytes :=
  [(v >>> 56).toUInt8, (v >>> 48).toUInt8, (v >>> 40).toUInt8, (v >>> 32).toUInt8,
    (v >>> 24).toUInt8, (v >>> 16).toUInt8, (v >>> 8).toUInt8, v.toUInt8]

/-- The length is cast to 32 bits, as the source casts it. -/
def writeBlob (b : Bytes) : Bytes := writeU32 (UInt32.ofNat b.length) ++ b

def writeString (s : Bytes) : Bytes := writeBlob s

/-! ## Readers -/

def readU32 : Bytes → Option (UInt32 × Bytes)
  | a :: b :: c :: d :: rest =>
    some (UInt32.ofNat (((a.toNat * 256 + b.toNat) * 256 + c.toNat) * 256 + d.toNat), rest)
  | _ => none

def readU64 (bytes : Bytes) : Option (UInt64 × Bytes) := do
  let (hi, rest) ← readU32 bytes
  let (lo, rest) ← readU32 rest
  return (UInt64.ofNat (hi.toNat * 4294967296 + lo.toNat), rest)

def readBytes (bytes : Bytes) (count : Nat) : Option (Bytes × Bytes) :=
  if count ≤ bytes.length then some (bytes.take count, bytes.drop count) else none

def readBlob (bytes : Bytes) (maxLen : Nat) : Option (Bytes × Bytes) := do
  let (len, rest) ← readU32 bytes
  if len.toNat > maxLen then none else readBytes rest len.toNat

def readString (bytes : Bytes) (maxLen : Nat) : Option (Bytes × Bytes) := readBlob bytes maxLen

/-! ## Hexadecimal text -/

def hexDigit (n : UInt8) : UInt8 := if n < 10 then 48 + n else 87 + n

def bytesToHex (b : Bytes) : Bytes := b.flatMap fun v : UInt8 => [hexDigit (v >>> 4), hexDigit (v &&& 15)]

/-- The value of a digit, in either case. -/
def nibble (c : UInt8) : Option UInt8 :=
  if 48 ≤ c ∧ c ≤ 57 then some (c - 48)
  else if 97 ≤ c ∧ c ≤ 102 then some (c - 97 + 10)
  else if 65 ≤ c ∧ c ≤ 70 then some (c - 65 + 10)
  else none

theorem isSome_nibble {c : UInt8} : (nibble c).isSome ↔ 48 ≤ c.toNat ∧ c.toNat ≤ 57 ∨
    97 ≤ c.toNat ∧ c.toNat ≤ 102 ∨ 65 ≤ c.toNat ∧ c.toNat ≤ 70 := by
  simp only [nibble, UInt8.le_iff_toNat_le, UInt8.reduceToNat]
  split_ifs <;> simp <;> omega

def hexToBytes : Bytes → Option Bytes
  | [] => some []
  | [_] => none
  | hi :: lo :: rest => do
    let hi ← nibble hi
    let lo ← nibble lo
    let rest ← hexToBytes rest
    return (hi * 16 + lo) :: rest

/-! ## Reading back what was written -/

theorem toNat_shiftRight_toUInt8 (v : UInt64) (k : UInt64) (hk : k.toNat < 64) :
    (v >>> k).toUInt8.toNat = v.toNat / 2 ^ k.toNat % 256 := by
  simp [UInt64.toNat_shiftRight, Nat.shiftRight_eq_div_pow, Nat.mod_eq_of_lt hk]

theorem toNat_shiftRight_toUInt8' (v : UInt32) (k : UInt32) (hk : k.toNat < 32) :
    (v >>> k).toUInt8.toNat = v.toNat / 2 ^ k.toNat % 256 := by
  simp [UInt32.toNat_shiftRight, Nat.shiftRight_eq_div_pow, Nat.mod_eq_of_lt hk]

@[simp] theorem length_writeU32 (v : UInt32) : (writeU32 v).length = 4 := rfl

@[simp] theorem length_writeU64 (v : UInt64) : (writeU64 v).length = 8 := rfl

theorem length_writeBlob (b : Bytes) : (writeBlob b).length = 4 + b.length := by
  rw [writeBlob, List.length_append, length_writeU32]

theorem length_flatten_writeBlob {n : ℕ} {bs : List Bytes} (h : ∀ b ∈ bs, b.length = n) :
    (bs.map writeBlob).flatten.length = (4 + n) * bs.length := by
  induction bs with
  | nil => rfl
  | cons b bs ih =>
    rw [List.map_cons, List.flatten_cons, List.length_append, length_writeBlob, h b List.mem_cons_self,
      ih fun b' hb' => h b' (List.mem_cons_of_mem b hb'), List.length_cons, Nat.mul_add, Nat.mul_one,
      Nat.add_comm]

theorem readU32_writeU32 (v : UInt32) (rest : Bytes) :
    readU32 (writeU32 v ++ rest) = some (v, rest) := by
  have hv := v.toNat_lt
  simp only [writeU32, List.cons_append, List.nil_append, readU32, Option.some.injEq,
    Prod.mk.injEq, and_true]
  apply UInt32.toNat_inj.1
  rw [toNat_shiftRight_toUInt8' v 24 (by decide), toNat_shiftRight_toUInt8' v 16 (by decide),
    toNat_shiftRight_toUInt8' v 8 (by decide)]
  simp only [UInt32.toNat_ofNat', UInt32.toNat_toUInt8, UInt32.reduceToNat]
  omega

theorem readU64_writeU64 (v : UInt64) (rest : Bytes) :
    readU64 (writeU64 v ++ rest) = some (v, rest) := by
  have hv := v.toNat_lt
  simp only [writeU64, List.cons_append, List.nil_append, readU64, readU32, Option.bind_eq_bind,
    Option.bind_some, Option.pure_def, Option.some.injEq, Prod.mk.injEq, and_true]
  apply UInt64.toNat_inj.1
  rw [toNat_shiftRight_toUInt8 v 56 (by decide), toNat_shiftRight_toUInt8 v 48 (by decide),
    toNat_shiftRight_toUInt8 v 40 (by decide), toNat_shiftRight_toUInt8 v 32 (by decide),
    toNat_shiftRight_toUInt8 v 24 (by decide), toNat_shiftRight_toUInt8 v 16 (by decide),
    toNat_shiftRight_toUInt8 v 8 (by decide)]
  simp only [UInt64.toNat_ofNat', UInt32.toNat_ofNat', UInt64.toNat_toUInt8, UInt64.reduceToNat]
  omega

theorem readBytes_append (b rest : Bytes) : readBytes (b ++ rest) b.length = some (b, rest) := by
  simp [readBytes]

theorem readBlob_writeBlob {b : Bytes} {maxLen : Nat} (hmax : b.length ≤ maxLen)
    (hlen : b.length < 2 ^ 32) (rest : Bytes) :
    readBlob (writeBlob b ++ rest) maxLen = some (b, rest) := by
  have hto : (UInt32.ofNat b.length).toNat = b.length := by
    rw [UInt32.toNat_ofNat', Nat.mod_eq_of_lt hlen]
  simp only [readBlob, writeBlob, List.append_assoc, readU32_writeU32, Option.bind_eq_bind,
    Option.bind_some, hto, not_lt.2 hmax, if_false, readBytes_append]

theorem nibble_hexDigit (v : UInt8) :
    nibble (hexDigit (v >>> 4)) = some (v >>> 4) ∧ nibble (hexDigit (v &&& 15)) = some (v &&& 15) ∧
      (v >>> 4) * 16 + (v &&& 15) = v := by
  have hall : ∀ n : Fin 256, nibble (hexDigit (UInt8.ofFin n >>> 4)) = some (UInt8.ofFin n >>> 4) ∧
      nibble (hexDigit (UInt8.ofFin n &&& 15)) = some (UInt8.ofFin n &&& 15) ∧
      (UInt8.ofFin n >>> 4) * 16 + (UInt8.ofFin n &&& 15) = UInt8.ofFin n := by
    decide +kernel
  exact hall v.toFin

theorem hexToBytes_bytesToHex (b : Bytes) : hexToBytes (bytesToHex b) = some b := by
  induction b with
  | nil => rfl
  | cons v b ih =>
    obtain ⟨hhi, hlo, hv⟩ := nibble_hexDigit v
    rw [bytesToHex, List.flatMap_cons, List.cons_append, List.cons_append, List.nil_append,
      hexToBytes, hhi, hlo, ← bytesToHex, ih]
    simp only [Option.bind_eq_bind, Option.bind_some, hv, Option.pure_def]

theorem readBlob_writeBlob_of_lt {b : Bytes} {maxLen : Nat} (hmax : maxLen < b.length)
    (hlen : b.length < 2 ^ 32) (rest : Bytes) : readBlob (writeBlob b ++ rest) maxLen = none := by
  have hto : (UInt32.ofNat b.length).toNat = b.length := by
    rw [UInt32.toNat_ofNat', Nat.mod_eq_of_lt hlen]
  simp only [readBlob, writeBlob, List.append_assoc, readU32_writeU32, Option.bind_eq_bind,
    Option.bind_some, hto, gt_iff_lt, hmax, if_true]

/-! ## Fields of a written sequence -/

theorem writeU32_append_inj {v w : UInt32} {r s : Bytes}
    (h : writeU32 v ++ r = writeU32 w ++ s) : v = w ∧ r = s := by
  have := congrArg readU32 h
  simpa only [readU32_writeU32, Option.some.injEq, Prod.mk.injEq] using this

theorem writeU64_append_inj {v w : UInt64} {r s : Bytes}
    (h : writeU64 v ++ r = writeU64 w ++ s) : v = w ∧ r = s := by
  have := congrArg readU64 h
  simpa only [readU64_writeU64, Option.some.injEq, Prod.mk.injEq] using this

theorem writeBlob_append_inj {b c r s : Bytes} (hb : b.length < 2 ^ 32) (hc : c.length < 2 ^ 32)
    (h : writeBlob b ++ r = writeBlob c ++ s) : b = c ∧ r = s := by
  have := congrArg (readBlob · (max b.length c.length)) h
  simpa only [readBlob_writeBlob (le_max_left _ _) hb, readBlob_writeBlob (le_max_right _ _) hc,
    Option.some.injEq, Prod.mk.injEq] using this

/-- Two blobs of the same length can be compared whatever that length is. -/
theorem writeBlob_append_inj_of_length_eq {b c r s : Bytes} (hlen : b.length = c.length)
    (h : writeBlob b ++ r = writeBlob c ++ s) : b = c ∧ r = s := by
  simp only [writeBlob, hlen, List.append_assoc] at h
  exact List.append_inj (List.append_cancel_left h) hlen

end PqSuite
