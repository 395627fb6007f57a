import Mathlib.Data.List.DropRight
import Mathlib.Data.List.GetD

/-!
# UTF-8

A text is well-formed if it is the encoding of characters, which are Unicode's scalar values. `Form` says
which bytes are the form of which character, by the ranges of the first byte and the value that the bytes
stand for; a decoder that reads one form after the other reads exactly the well-formed texts.
-/

namespace Utf8

variable {cs : List Char} {v : ℕ} {bs : List UInt8}

def encode (cs : List Char) : List UInt8 := cs.flatMap String.utf8EncodeChar

/-- Shortest forms only, no surrogates, and nothing above U+10FFFF. -/
def WellFormed (s : List UInt8) : Prop := ∃ cs, encode cs = s

@[simp]
theorem encode_nil : encode [] = [] := rfl

@[simp]
theorem encode_cons (c : Char) (cs : List Char) :
    encode (c :: cs) = String.utf8EncodeChar c ++ encode cs := rfl

theorem encode_append (cs ds : List Char) : encode (cs ++ ds) = encode cs ++ encode ds := List.flatMap_append

theorem WellFormed.append {s t : List UInt8} (hs : WellFormed s) (ht : WellFormed t) :
    WellFormed (s ++ t) := by
  obtain ⟨cs, rfl⟩ := hs
  obtain ⟨ds, rfl⟩ := ht
  exact ⟨cs ++ ds, encode_append cs ds⟩

/-- A byte after the first of a form. -/
def IsTail (b : UInt8) : Prop := 0x80 ≤ b.toNat ∧ b.toNat < 0xC0

/-- The bytes are the form of the character with this value. -/
inductive Form (v : ℕ) : List UInt8 → Prop
  | one {a : UInt8} (ha : a.toNat < 0x80) (hv : v = a.toNat) : Form v [a]
  | two {a b : UInt8} (ha : 0xC0 ≤ a.toNat ∧ a.toNat < 0xE0) (hb : IsTail b)
      (hv : v = (a.toNat - 0xC0) * 64 + (b.toNat - 0x80)) (hmin : 0x80 ≤ v) : Form v [a, b]
  | three {a b c : UInt8} (ha : 0xE0 ≤ a.toNat ∧ a.toNat < 0xF0) (hb : IsTail b) (hc : IsTail c)
      (hv : v = ((a.toNat - 0xE0) * 64 + (b.toNat - 0x80)) * 64 + (c.toNat - 0x80)) (hmin : 0x800 ≤ v)
      (hscalar : v < 0xD800 ∨ 0xDFFF < v) : Form v [a, b, c]
  | four {a b c d : UInt8} (ha : 0xF0 ≤ a.toNat ∧ a.toNat < 0xF8) (hb : IsTail b) (hc : IsTail c)
      (hd : IsTail d)
      (hv : v = (((a.toNat - 0xF0) * 64 + (b.toNat - 0x80)) * 64 + (c.toNat - 0x80)) * 64 + (d.toNat - 0x80))
      (hmin : 0x10000 ≤ v) (hmax : v ≤ 0x10FFFF) : Form v [a, b, c, d]

theorem toNat_ofNat_of_lt {n : ℕ} (h : n < 256) : (UInt8.ofNat n).toNat = n := UInt8.toNat_ofNat_of_lt' h

def bytesOf (v : ℕ) : List UInt8 :=
  if v ≤ 0x7F then [.ofNat v]
  else if v ≤ 0x7FF then [.ofNat (v / 64 % 32 + 0xC0), .ofNat (v % 64 + 0x80)]
  else if v ≤ 0xFFFF then
    [.ofNat (v / 4096 % 16 + 0xE0), .ofNat (v / 64 % 64 + 0x80), .ofNat (v % 64 + 0x80)]
  else
    [.ofNat (v / 262144 % 8 + 0xF0), .ofNat (v / 4096 % 64 + 0x80), .ofNat (v / 64 % 64 + 0x80),
      .ofNat (v % 64 + 0x80)]

theorem utf8EncodeChar_eq (c : Char) : String.utf8EncodeChar c = bytesOf c.toNat := rfl

theorem form_bytesOf (h : v.isValidChar) : Form v (bytesOf v) := by
  have hscalar : v < 0xD800 ∨ 0xDFFF < v ∧ v < 0x110000 := h
  have hbyte : ∀ k m n, k + m ≤ 256 → 0 < m → (UInt8.ofNat (n % m + k)).toNat = n % m + k :=
    fun k m n hk hm => toNat_ofNat_of_lt (by have := Nat.mod_lt n hm; omega)
  have htail : ∀ n, IsTail (UInt8.ofNat (n % 64 + 0x80)) := fun n => by
    unfold IsTail
    rw [hbyte 0x80 64 n (by omega) (by omega)]
    omega
  unfold bytesOf
  split_ifs with hone htwo hthree
  · have ha : (UInt8.ofNat v).toNat = v := toNat_ofNat_of_lt (by omega)
    exact .one (by omega) ha.symm
  · refine .two ?_ (htail _) ?_ (by omega)
    · rw [hbyte 0xC0 32 _ (by omega) (by omega)]
      omega
    · rw [hbyte 0xC0 32 _ (by omega) (by omega), hbyte 0x80 64 _ (by omega) (by omega)]
      omega
  · refine .three ?_ (htail _) (htail _) ?_ (by omega) (by omega)
    · rw [hbyte 0xE0 16 _ (by omega) (by omega)]
      omega
    · rw [hbyte 0xE0 16 _ (by omega) (by omega), hbyte 0x80 64 _ (by omega) (by omega),
        hbyte 0x80 64 _ (by omega) (by omega)]
      omega
  · refine .four ?_ (htail _) (htail _) (htail _) ?_ (by omega) (by omega)
    · rw [hbyte 0xF0 8 _ (by omega) (by omega)]
      omega
    · rw [hbyte 0xF0 8 _ (by omega) (by omega), hbyte 0x80 64 _ (by omega) (by omega),
        hbyte 0x80 64 _ (by omega) (by omega), hbyte 0x80 64 _ (by omega) (by omega)]
      omega

namespace Form

variable {v : ℕ} {bs : List UInt8}

theorem scalar (h : Form v bs) : v.isValidChar := by
  cases h with
  | one ha hv => exact .inl (by omega)
  | two ha hb hv hmin =>
    have := hb.2
    exact .inl (by omega)
  | three ha hb hc hv hmin hscalar =>
    have := hb.2
    have := hc.2
    rcases hscalar with hlow | hhigh
    · exact .inl hlow
    · exact .inr ⟨hhigh, by omega⟩
  | four ha hb hc hd hv hmin hmax => exact .inr ⟨by omega, by omega⟩

theorem eq_bytesOf (h : Form v bs) : bs = bytesOf v := by
  have hbyte : ∀ {n : ℕ} (a : UInt8), n = a.toNat → UInt8.ofNat n = a := by
    rintro n a rfl
    exact UInt8.ofNat_toNat
  unfold bytesOf
  cases h with
  | @one a ha hv => rw [if_pos (by omega), hbyte a hv]
  | @two a b ha hb hv hmin =>
    obtain ⟨hb, hb'⟩ := hb
    rw [if_neg (by omega), if_pos (by omega), hbyte a (by omega), hbyte b (by omega)]
  | @three a b c ha hb hc hv hmin hscalar =>
    obtain ⟨hb, hb'⟩ := hb
    obtain ⟨hc, hc'⟩ := hc
    rw [if_neg (by omega), if_neg (by omega), if_pos (by omega), hbyte a (by omega), hbyte b (by omega),
      hbyte c (by omega)]
  | @four a b c d ha hb hc hd hv hmin hmax =>
    obtain ⟨hb, hb'⟩ := hb
    obtain ⟨hc, hc'⟩ := hc
    obtain ⟨hd, hd'⟩ := hd
    rw [if_neg (by omega), if_neg (by omega), if_neg (by omega), hbyte a (by omega), hbyte b (by omega),
      hbyte c (by omega), hbyte d (by omega)]

end Form

theorem Form.ne_nil (h : Form v bs) : bs ≠ [] := by
  cases h <;> exact List.cons_ne_nil _ _

theorem form_iff : Form v bs ↔ ∃ c : Char, c.toNat = v ∧ String.utf8EncodeChar c = bs := by
  constructor
  · intro h
    exact ⟨Char.ofNatAux v h.scalar, rfl, h.eq_bytesOf.symm⟩
  · rintro ⟨c, rfl, rfl⟩
    exact form_bytesOf c.valid

theorem encode_eq_nil : encode cs = [] ↔ cs = [] := by
  cases cs with
  | nil => simp
  | cons c cs =>
    have hne := (form_iff.2 ⟨c, rfl, rfl⟩ : Form c.toNat (String.utf8EncodeChar c)).ne_nil
    simp [hne]

/-- A text that is not empty starts with the form of its first character. -/
theorem encode_eq_cons {b : UInt8} {s : List UInt8} :
    encode cs = b :: s ↔ ∃ c cs' bs rest, cs = c :: cs' ∧ Form c.toNat bs ∧ b :: s = bs ++ rest ∧
      encode cs' = rest := by
  constructor
  · intro h
    cases cs with
    | nil => cases h
    | cons c cs =>
      exact ⟨c, cs, _, _, rfl, form_iff.2 ⟨c, rfl, rfl⟩, h.symm, rfl⟩
  · rintro ⟨c, cs', bs, rest, rfl, hform, heq, rfl⟩
    rw [encode_cons, utf8EncodeChar_eq, ← hform.eq_bytesOf, heq]

/-! ## Bytes below 0x80 -/

theorem encodeChar_of_lt {c : Char} (h : c.toNat < 0x80) :
    String.utf8EncodeChar c = [UInt8.ofNat c.toNat] := by
  rw [utf8EncodeChar_eq, bytesOf, if_pos (Nat.le_of_lt_succ h)]

theorem Form.eq_singleton (h : Form v bs) {b : UInt8} (hb : b ∈ bs) (hlt : b.toNat < 0x80) :
    bs = [b] ∧ v = b.toNat := by
  cases h with
  | one ha hv =>
    rw [List.mem_singleton.1 hb]
    exact ⟨rfl, hv⟩
  | two ha htail hv hmin =>
    unfold IsTail at htail
    simp only [List.mem_cons, List.not_mem_nil, or_false] at hb
    rcases hb with rfl | rfl <;> omega
  | three ha htail htail' hv hmin hscalar =>
    unfold IsTail at htail htail'
    simp only [List.mem_cons, List.not_mem_nil, or_false] at hb
    rcases hb with rfl | rfl | rfl <;> omega
  | four ha htail htail' htail'' hv hmin hmax =>
    unfold IsTail at htail htail' htail''
    simp only [List.mem_cons, List.not_mem_nil, or_false] at hb
    rcases hb with rfl | rfl | rfl | rfl <;> omega

/-- A byte below 0x80 stands for a character, wherever it is in a text. -/
theorem mem_encode_iff {c : Char} (hlt : c.toNat < 0x80) : UInt8.ofNat c.toNat ∈ encode cs ↔ c ∈ cs := by
  rw [encode, List.mem_flatMap]
  constructor
  · rintro ⟨d, hd, hmem⟩
    have hbyte : (UInt8.ofNat c.toNat).toNat = c.toNat := toNat_ofNat_of_lt (by omega)
    have hval := ((form_iff.2 ⟨d, rfl, rfl⟩).eq_singleton hmem (by omega)).2
    rwa [← Char.toNat_inj.1 (hval.trans hbyte)]
  · intro hc
    exact ⟨c, hc, by rw [encodeChar_of_lt hlt]; exact List.mem_singleton_self _⟩

/-- A test of bytes that only bytes below 0x80 pass, and the same test of characters. -/
structure SameTest (p : UInt8 → Bool) (q : Char → Bool) : Prop where
  ascii : ∀ b, p b = true → b.toNat < 0x80
  char : ∀ c : Char, q c = true ↔ c.toNat < 0x80 ∧ p (UInt8.ofNat c.toNat) = true

namespace SameTest

variable {p : UInt8 → Bool} {q : Char → Bool} (h : SameTest p q)

include h

theorem encodeChar_of_pos {c : Char} (hc : q c = true) : ∃ b, String.utf8EncodeChar c = [b] ∧ p b = true := by
  obtain ⟨hlt, hp⟩ := (h.char c).1 hc
  exact ⟨_, encodeChar_of_lt hlt, hp⟩

theorem encodeChar_of_neg {c : Char} (hc : q c = false) {b : UInt8} (hb : b ∈ String.utf8EncodeChar c) :
    p b = false := by
  by_contra hp
  rw [Bool.not_eq_false] at hp
  have hlt := h.ascii b hp
  have hval := ((form_iff.2 ⟨c, rfl, rfl⟩).eq_singleton hb hlt).2
  have htrue : q c = true := (h.char c).2 ⟨by omega, by rwa [hval, UInt8.ofNat_toNat]⟩
  rw [hc] at htrue
  cases htrue

theorem dropWhile_encode (cs : List Char) : (encode cs).dropWhile p = encode (cs.dropWhile q) := by
  induction cs with
  | nil => rfl
  | cons c cs ih =>
    rw [encode_cons]
    cases hc : q c with
    | true =>
      obtain ⟨b, hb, hp⟩ := h.encodeChar_of_pos hc
      rw [hb, List.singleton_append, List.dropWhile_cons_of_pos hp, ih, List.dropWhile_cons_of_pos hc]
    | false =>
      cases hbytes : String.utf8EncodeChar c with
      | nil => exact absurd hbytes String.utf8EncodeChar_ne_nil
      | cons b bs =>
        have hp := h.encodeChar_of_neg hc (hbytes ▸ List.mem_cons_self)
        rw [List.cons_append, List.dropWhile_cons_of_neg (by rw [hp]; exact Bool.false_ne_true),
          List.dropWhile_cons_of_neg (by rw [hc]; exact Bool.false_ne_true), encode_cons, hbytes,
          List.cons_append]

theorem rdropWhile_encode (cs : List Char) : (encode cs).rdropWhile p = encode (cs.rdropWhile q) := by
  induction cs using List.reverseRecOn with
  | nil => rfl
  | append_singleton cs c ih =>
    have hlast : encode (cs ++ [c]) = encode cs ++ String.utf8EncodeChar c := by
      rw [encode_append, encode_cons, encode_nil, List.append_nil]
    rw [hlast]
    cases hc : q c with
    | true =>
      obtain ⟨b, hb, hp⟩ := h.encodeChar_of_pos hc
      rw [hb, List.rdropWhile_concat_pos _ _ _ hp, ih, List.rdropWhile_concat_pos _ _ _ hc]
    | false =>
      obtain ⟨bs, b, hbytes⟩ := (List.eq_nil_or_concat (String.utf8EncodeChar c)).resolve_left
        String.utf8EncodeChar_ne_nil
      rw [List.concat_eq_append] at hbytes
      have hp := h.encodeChar_of_neg hc (b := b)
        (by rw [hbytes]; exact List.mem_append_right _ List.mem_cons_self)
      rw [List.rdropWhile_concat_neg _ _ _ (by rw [hc]; exact Bool.false_ne_true), hlast, hbytes,
        ← List.append_assoc, List.rdropWhile_concat_neg _ _ _ (by rw [hp]; exact Bool.false_ne_true)]

end SameTest

/-! ## A text of limited length -/

/-- As many of the first characters as fit. -/
def fit : ℕ → List Char → List Char
  | _, [] => []
  | budget, c :: cs =>
    let width := (String.utf8EncodeChar c).length
    if width ≤ budget then c :: fit (budget - width) cs else []

theorem fit_isPrefix (budget : ℕ) (cs : List Char) : fit budget cs <+: cs := by
  induction cs generalizing budget with
  | nil => exact List.nil_prefix
  | cons c cs ih =>
    simp only [fit]
    split_ifs
    · exact (List.prefix_cons_inj c).2 (ih _)
    · exact List.nil_prefix

theorem length_encode_fit_le (budget : ℕ) (cs : List Char) : (encode (fit budget cs)).length ≤ budget := by
  induction cs generalizing budget with
  | nil => exact Nat.zero_le _
  | cons c cs ih =>
    simp only [fit]
    split_ifs with hfits
    · rw [encode_cons, List.length_append]
      have := ih (budget - (String.utf8EncodeChar c).length)
      omega
    · exact Nat.zero_le _

theorem Form.first {a : UInt8} {more : List UInt8} (h : Form v (a :: more)) :
    ¬IsTail a ∧ ∀ b ∈ more, IsTail b := by
  unfold IsTail
  cases h with
  | one ha hv => exact ⟨by omega, fun b hb => absurd hb List.not_mem_nil⟩
  | two ha hb hv hmin => exact ⟨by omega, by simpa [IsTail] using hb⟩
  | three ha hb hc hv hmin hscalar => exact ⟨by omega, by simpa using ⟨hb, hc⟩⟩
  | four ha hb hc hd hv hmin hmax => exact ⟨by omega, by simpa using ⟨hb, hc, hd⟩⟩

/-- Where the characters that fit end, a character starts, and up to the limit the text goes on with the
rest of its form. -/
theorem fit_boundary {budget : ℕ} (h : budget < (encode cs).length) :
    (encode cs).take (encode (fit budget cs)).length = encode (fit budget cs) ∧
    ¬IsTail ((encode cs).getD (encode (fit budget cs)).length 0) ∧
    ∀ j, (encode (fit budget cs)).length < j → j ≤ budget → IsTail ((encode cs).getD j 0) := by
  induction cs generalizing budget with
  | nil => cases h
  | cons c cs ih =>
    rw [encode_cons, List.length_append] at h
    simp only [fit]
    split_ifs with hfits
    · have hrest : budget - (String.utf8EncodeChar c).length < (encode cs).length := by omega
      obtain ⟨htake, hstart, htails⟩ := ih hrest
      rw [encode_cons, encode_cons, List.length_append]
      refine ⟨?_, ?_, fun j hj hle => ?_⟩
      · rw [List.take_length_add_append, htake]
      · rw [List.getD_append_right _ _ _ _ (Nat.le_add_right _ _), Nat.add_sub_cancel_left]
        exact hstart
      · rw [List.getD_append_right _ _ _ _ (by omega)]
        exact htails _ (by omega) (by omega)
    · cases hbytes : String.utf8EncodeChar c with
      | nil => exact absurd hbytes String.utf8EncodeChar_ne_nil
      | cons a more =>
        obtain ⟨hfirst, hmore⟩ := (form_iff.2 ⟨c, rfl, hbytes⟩ : Form c.toNat (a :: more)).first
        rw [hbytes, List.length_cons] at hfits
        rw [encode_cons, hbytes]
        refine ⟨rfl, hfirst, fun j hj hle => ?_⟩
        rw [List.getD_append _ _ _ _ (by rw [List.length_cons]; omega)]
        obtain ⟨k, rfl⟩ := Nat.exists_eq_add_one_of_ne_zero (Nat.ne_zero_of_lt hj)
        rw [List.getD_cons_succ, List.getD_eq_getElem _ _ (by omega)]
        exact hmore _ (List.getElem_mem _)

end Utf8
