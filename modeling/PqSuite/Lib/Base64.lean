import Mathlib.Data.Fin.Basic
import Mathlib.Data.Nat.Bitwise

/-!
# Bytes as digits of six bits

Three bytes are the four digits of one number below `2 ^ 24`. One or two bytes at the end are two or three
digits, of which the last is filled up with zeros, and no other digits stand for bytes (`bytes_eq_some`).
-/

namespace Base64

abbrev Digit := Fin 64

def digit (n : ℕ) : Digit := Fin.ofNat 64 n

def byte (n : ℕ) : UInt8 := UInt8.ofNat n

def digits : List UInt8 → List Digit
  | [] => []
  | [a] => [digit (a.toNat / 4), digit (a.toNat * 16)]
  | [a, b] =>
    let v := a.toNat * 256 + b.toNat
    [digit (v / 1024), digit (v / 16), digit (v * 4)]
  | a :: b :: c :: rest =>
    let v := (a.toNat * 256 + b.toNat) * 256 + c.toNat
    digit (v / 262144) :: digit (v / 4096) :: digit (v / 64) :: digit v :: digits rest

def bytes : List Digit → Option (List UInt8)
  | [] => some []
  | [_] => none
  | [p, q] => if q.val % 16 = 0 then some [byte ((p.val * 64 + q.val) / 16)] else none
  | [p, q, r] =>
    let v := ((p.val * 64 + q.val) * 64 + r.val) / 4
    if r.val % 4 = 0 then some [byte (v / 256), byte v] else none
  | p :: q :: r :: s :: rest =>
    let v := ((p.val * 64 + q.val) * 64 + r.val) * 64 + s.val
    (bytes rest).map fun bs => byte (v / 65536) :: byte (v / 256) :: byte v :: bs

@[simp] theorem val_digit (n : ℕ) : (digit n).val = n % 64 := by rw [digit, Fin.val_ofNat]

@[simp] theorem toNat_byte (n : ℕ) : (byte n).toNat = n % 256 := UInt8.toNat_ofNat'

theorem byte_eq {n : ℕ} {a : UInt8} (h : n % 256 = a.toNat) : byte n = a :=
  UInt8.toNat_inj.1 ((toNat_byte n).trans h)

theorem digit_eq {n : ℕ} {d : Digit} (h : n % 64 = d.val) : digit n = d := Fin.ext ((val_digit n).trans h)

theorem bytes_digits (bs : List UInt8) : bytes (digits bs) = some bs := by
  fun_induction digits bs with
  | case1 => rfl
  | case2 a =>
    have ha := a.toNat_lt
    rw [bytes, if_pos (by rw [val_digit]; omega), byte_eq]
    simp only [val_digit]
    omega
  | case3 a b v =>
    have ha := a.toNat_lt
    have hb := b.toNat_lt
    simp only [bytes, val_digit]
    rw [if_pos (by omega), byte_eq (a := a) (by omega), byte_eq (a := b) (by omega)]
  | case4 a b c rest v ih =>
    have ha := a.toNat_lt
    have hb := b.toNat_lt
    have hc := c.toNat_lt
    simp only [bytes, val_digit, ih, Option.map_some]
    rw [byte_eq (a := a) (by omega), byte_eq (a := b) (by omega), byte_eq (a := c) (by omega)]

theorem digits_of_bytes {ds : List Digit} {bs : List UInt8} (h : bytes ds = some bs) : digits bs = ds := by
  fun_induction bytes ds generalizing bs with
  | case1 => cases h; rfl
  | case2 => cases h
  | case3 p q hq =>
    obtain rfl := Option.some.inj h
    simp only [digits, toNat_byte]
    rw [digit_eq (d := p) (by omega), digit_eq (d := q) (by omega)]
  | case4 => cases h
  | case5 p q r v =>
    obtain rfl := Option.some.inj h
    simp only [digits, toNat_byte]
    rw [digit_eq (d := p) (by omega), digit_eq (d := q) (by omega), digit_eq (d := r) (by omega)]
  | case6 => cases h
  | case7 p q r s rest v =>
    rename_i ih
    obtain ⟨bs', hrest, rfl⟩ := Option.map_eq_some_iff.1 h
    simp only [digits, toNat_byte, ih hrest]
    rw [digit_eq (d := p) (by omega), digit_eq (d := q) (by omega), digit_eq (d := r) (by omega),
      digit_eq (d := s) (by omega)]

theorem bytes_eq_some {ds : List Digit} {bs : List UInt8} : bytes ds = some bs ↔ ds = digits bs := by
  refine ⟨fun h => (digits_of_bytes h).symm, ?_⟩
  rintro rfl
  exact bytes_digits bs

end Base64
