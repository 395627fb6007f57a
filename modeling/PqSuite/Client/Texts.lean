import Mathlib.Data.FinEnum
import PqSuite.Lib.Utf8
import PqSuite.Client.MessageRecord

/-!
# Texts from elsewhere

Three places read UTF-8 byte by byte: `decode_utf8` of `attachment.cpp`, `valid_label` of
`message_record.cpp` and `sanitize_utf8` of `transfer_engine.cpp`. The first two compute a character's value
and check it; the third only looks at the bytes. They take the same texts.
-/

namespace PqSuite

open Utf8

/-! ## Decoding -/

namespace Attachment

open Chat (leadByte minForLength)

def decodeChar (c : UInt8) (rest : Bytes) : Option (ℕ × Bytes) :=
  match leadByte c with
  | none => none
  | some (bits, len) =>
    let more := rest.take (len - 1)
    let cp := more.foldl (fun cp cc => cp * 64 + (cc &&& 0x3F).toNat) bits
    if len > rest.length + 1 then none
    else if ¬more.all (· &&& 0xC0 = 0x80) then none
    else if len > 1 ∧ cp < minForLength len then none
    else if cp > 0x10FFFF ∨ (cp ≥ 0xD800 ∧ cp ≤ 0xDFFF) then none
    else some (cp, rest.drop (len - 1))

def decodeChars : ℕ → Bytes → Option (List ℕ)
  | _, [] => some []
  | 0, _ :: _ => none
  | n + 1, c :: rest =>
    match decodeChar c rest with
    | none => none
    | some (cp, rest) => (decodeChars n rest).map (cp :: ·)

def decodeUtf8 (s : Bytes) : Option (List ℕ) := decodeChars s.length s

def appendUtf8 (cp : ℕ) : Bytes :=
  if cp < 0x80 then [.ofNat cp]
  else if cp < 0x800 then [.ofNat (0xC0 ||| cp >>> 6), .ofNat (0x80 ||| cp &&& 0x3F)]
  else if cp < 0x10000 then
    [.ofNat (0xE0 ||| cp >>> 12), .ofNat (0x80 ||| cp >>> 6 &&& 0x3F), .ofNat (0x80 ||| cp &&& 0x3F)]
  else
    [.ofNat (0xF0 ||| cp >>> 18), .ofNat (0x80 ||| cp >>> 12 &&& 0x3F), .ofNat (0x80 ||| cp >>> 6 &&& 0x3F),
      .ofNat (0x80 ||| cp &&& 0x3F)]

end Attachment

/-! ## Replacing what is not UTF-8 -/

namespace Transfer

/-- How long a character is by its first byte; 0 if it cannot start one. -/
def sequenceLength (c : UInt8) : ℕ :=
  if c < 0x80 then 1
  else if c >>> 5 = 0x6 then 2
  else if c >>> 4 = 0xE then 3
  else if c >>> 3 = 0x1E then 4
  else 0

def validSequence (c : UInt8) (rest : Bytes) : Bool :=
  let n := sequenceLength c
  let second := rest.headD 0
  n ≠ 0 && n ≤ rest.length + 1 && (rest.take (n - 1)).all (· &&& 0xC0 = 0x80) &&
    (n ≠ 2 || c ≥ 0xC2) &&
    (n ≠ 3 || !(c = 0xE0 && second < 0xA0) && !(c = 0xED && second ≥ 0xA0)) &&
    (n ≠ 4 || !(c = 0xF0 && second < 0x90) && c ≤ 0xF4 && !(c = 0xF4 && second ≥ 0x90))

def sanitizeChars : ℕ → Bytes → Bytes
  | _, [] => []
  | 0, _ :: _ => []
  | n + 1, c :: rest =>
    if validSequence c rest then
      c :: rest.take (sequenceLength c - 1) ++ sanitizeChars n (rest.drop (sequenceLength c - 1))
    else 95 :: sanitizeChars n rest

/-- Replaces invalid UTF-8 with `_`. -/
def sanitizeUtf8 (s : Bytes) : Bytes := sanitizeChars s.length s

end Transfer

/-! ## Bytes by their values -/

theorem isTail_iff (b : UInt8) : b &&& 0xC0 = 0x80 ↔ IsTail b := by
  unfold IsTail
  revert b
  decide +kernel

theorem tail_bits (b : UInt8) : IsTail b → (b &&& 0x3F).toNat = b.toNat - 0x80 := by
  unfold IsTail
  revert b
  decide +kernel

theorem leadByte_eq (c : UInt8) : Chat.leadByte c =
    if c.toNat < 0x80 then some (c.toNat, 1)
    else if c.toNat < 0xC0 then none
    else if c.toNat < 0xE0 then some (c.toNat - 0xC0, 2)
    else if c.toNat < 0xF0 then some (c.toNat - 0xE0, 3)
    else if c.toNat < 0xF8 then some (c.toNat - 0xF0, 4)
    else none := by
  revert c
  decide +kernel

theorem sequenceLength_eq (c : UInt8) : Transfer.sequenceLength c = ((Chat.leadByte c).map (·.2)).getD 0 := by
  have hlt := c.toNat_lt
  rw [leadByte_eq]
  simp only [Transfer.sequenceLength, UInt8.lt_iff_toNat_lt, ← UInt8.toNat_inj, UInt8.toNat_shiftRight,
    Nat.shiftRight_eq_div_pow, UInt8.reduceToNat, Nat.reduceMod, Nat.reducePow]
  split_ifs <;> first | rfl | omega

/-- What the bytes after the first add to a character's value. -/
def tailValue (bits : ℕ) (more : Bytes) : ℕ := more.foldl (fun cp cc => cp * 64 + (cc.toNat - 0x80)) bits

theorem foldl_tails {more : Bytes} (h : ∀ b ∈ more, IsTail b) (bits : ℕ) :
    more.foldl (fun cp cc => cp * 64 + (cc &&& 0x3F).toNat) bits = tailValue bits more := by
  induction more generalizing bits with
  | nil => rw [tailValue, List.foldl_nil, List.foldl_nil]
  | cons b more ih =>
    rw [List.foldl_cons, tail_bits b (h b List.mem_cons_self), ih fun b hb => h b (List.mem_cons_of_mem _ hb),
      tailValue, tailValue, List.foldl_cons]

/-! ## One character -/

section

variable {c : UInt8} {rest rest' : Bytes} {v bits len : ℕ}

theorem decodeChar_of_lead (hlead : Chat.leadByte c = some (bits, len)) :
    Attachment.decodeChar c rest = some (v, rest') ↔
      len ≤ rest.length + 1 ∧ (∀ b ∈ rest.take (len - 1), IsTail b) ∧
      tailValue bits (rest.take (len - 1)) = v ∧ (1 < len → Chat.minForLength len ≤ v) ∧
      (v < 0xD800 ∨ 0xDFFF < v ∧ v ≤ 0x10FFFF) ∧ rest.drop (len - 1) = rest' := by
  simp only [Attachment.decodeChar, hlead]
  by_cases htails : ∀ b ∈ rest.take (len - 1), IsTail b
  · rw [foldl_tails htails]
    simp only [List.all_eq_true, decide_eq_true_eq, isTail_iff, Option.ite_none_left_eq_some,
      Option.some.injEq, Prod.mk.injEq]
    constructor
    · rintro ⟨hlen, -, hmin, hscalar, rfl, rfl⟩
      exact ⟨by omega, htails, rfl, by omega, by omega, rfl⟩
    · rintro ⟨hlen, -, rfl, hmin, hscalar, rfl⟩
      exact ⟨by omega, fun hnot => hnot htails, by omega, by omega, rfl, rfl⟩
  · simp only [List.all_eq_true, decide_eq_true_eq, isTail_iff, htails, not_false_eq_true, if_true, false_and,
      and_false, Option.ite_none_left_eq_some, reduceCtorEq]

/-- The first byte says how many follow, and which bits of it are part of the value. -/
theorem leadByte_cases (c : UInt8) :
    Chat.leadByte c = none ∧ (0x80 ≤ c.toNat ∧ c.toNat < 0xC0 ∨ 0xF8 ≤ c.toNat) ∨
    Chat.leadByte c = some (c.toNat, 1) ∧ c.toNat < 0x80 ∨
    Chat.leadByte c = some (c.toNat - 0xC0, 2) ∧ 0xC0 ≤ c.toNat ∧ c.toNat < 0xE0 ∨
    Chat.leadByte c = some (c.toNat - 0xE0, 3) ∧ 0xE0 ≤ c.toNat ∧ c.toNat < 0xF0 ∨
    Chat.leadByte c = some (c.toNat - 0xF0, 4) ∧ 0xF0 ≤ c.toNat ∧ c.toNat < 0xF8 := by
  rw [leadByte_eq]
  split_ifs <;> simp only [true_and, false_and, false_or, or_false, Option.some.injEq, Prod.mk.injEq] <;>
    omega

theorem decodeChar_eq_some :
    Attachment.decodeChar c rest = some (v, rest') ↔ ∃ bs, Form v bs ∧ c :: rest = bs ++ rest' := by
  constructor
  · intro h
    rcases leadByte_cases c with ⟨hlead, -⟩ | ⟨hlead, hc⟩ | ⟨hlead, hc⟩ | ⟨hlead, hc⟩ | ⟨hlead, hc⟩
    · simp [Attachment.decodeChar, hlead] at h
    · obtain ⟨-, -, rfl, -, -, rfl⟩ := (decodeChar_of_lead hlead).1 h
      exact ⟨[c], .one hc rfl, rfl⟩
    · obtain ⟨hlen, htails, rfl, hmin, -, rfl⟩ := (decodeChar_of_lead hlead).1 h
      rcases rest with _ | ⟨b, rest⟩
      · simp at hlen
      · exact ⟨[c, b], .two hc (htails b (by simp)) rfl (hmin (by decide)), rfl⟩
    · obtain ⟨hlen, htails, rfl, hmin, hscalar, rfl⟩ := (decodeChar_of_lead hlead).1 h
      rcases rest with _ | ⟨b, _ | ⟨d, rest⟩⟩
      · simp at hlen
      · simp at hlen
      · exact ⟨[c, b, d], .three hc (htails b (by simp)) (htails d (by simp)) rfl (hmin (by decide))
          (by omega), rfl⟩
    · obtain ⟨hlen, htails, rfl, hmin, hscalar, rfl⟩ := (decodeChar_of_lead hlead).1 h
      rcases rest with _ | ⟨b, _ | ⟨d, _ | ⟨e, rest⟩⟩⟩
      · simp at hlen
      · simp at hlen
      · simp at hlen
      · have hmin : 0x10000 ≤ _ := hmin (by decide)
        exact ⟨[c, b, d, e], .four hc (htails b (by simp)) (htails d (by simp)) (htails e (by simp)) rfl hmin
          (by omega), rfl⟩
  · rintro ⟨bs, hform, heq⟩
    have hscalar : v < 0xD800 ∨ 0xDFFF < v ∧ v < 0x110000 := hform.scalar
    cases hform with
    | one ha hv =>
      obtain ⟨rfl, rfl⟩ := List.cons.inj heq
      have hlead : Chat.leadByte c = some (c.toNat, 1) := by rw [leadByte_eq, if_pos ha]
      exact (decodeChar_of_lead hlead).2 ⟨by omega, by simp, hv.symm, by omega, by omega, rfl⟩
    | two ha hb hv hmin =>
      obtain ⟨rfl, rfl⟩ := List.cons.inj heq
      have hlead : Chat.leadByte c = some (c.toNat - 0xC0, 2) := by
        rw [leadByte_eq, if_neg (by omega), if_neg (by omega), if_pos (by omega)]
      exact (decodeChar_of_lead hlead).2 ⟨by simp, by simpa using hb, hv.symm, fun _ => hmin, by omega, rfl⟩
    | three ha hb hc hv hmin hscalar =>
      obtain ⟨rfl, rfl⟩ := List.cons.inj heq
      have hlead : Chat.leadByte c = some (c.toNat - 0xE0, 3) := by
        rw [leadByte_eq, if_neg (by omega), if_neg (by omega), if_neg (by omega), if_pos (by omega)]
      exact (decodeChar_of_lead hlead).2
        ⟨by simp, by simpa using ⟨hb, hc⟩, hv.symm, fun _ => hmin, by omega, rfl⟩
    | four ha hb hc hd hv hmin hmax =>
      obtain ⟨rfl, rfl⟩ := List.cons.inj heq
      have hlead : Chat.leadByte c = some (c.toNat - 0xF0, 4) := by
        rw [leadByte_eq, if_neg (by omega), if_neg (by omega), if_neg (by omega), if_neg (by omega),
          if_pos (by omega)]
      exact (decodeChar_of_lead hlead).2
        ⟨by simp, by simpa using ⟨hb, hc, hd⟩, hv.symm, fun _ => hmin, by omega, rfl⟩

/-- The checks of the bytes, in numbers. -/
theorem validSequence_iff : Transfer.validSequence c rest = true ↔
    Transfer.sequenceLength c ≠ 0 ∧ Transfer.sequenceLength c ≤ rest.length + 1 ∧
    (∀ b ∈ rest.take (Transfer.sequenceLength c - 1), IsTail b) ∧
    (Transfer.sequenceLength c = 2 → 0xC2 ≤ c.toNat) ∧
    (Transfer.sequenceLength c = 3 → ¬(c.toNat = 0xE0 ∧ (rest.headD 0).toNat < 0xA0) ∧
      ¬(c.toNat = 0xED ∧ 0xA0 ≤ (rest.headD 0).toNat)) ∧
    (Transfer.sequenceLength c = 4 → ¬(c.toNat = 0xF0 ∧ (rest.headD 0).toNat < 0x90) ∧ c.toNat ≤ 0xF4 ∧
      ¬(c.toNat = 0xF4 ∧ 0x90 ≤ (rest.headD 0).toNat)) := by
  simp only [Transfer.validSequence, Bool.and_eq_true, Bool.or_eq_true, Bool.not_eq_true', decide_eq_true_eq,
    List.all_eq_true, isTail_iff, Bool.and_eq_false_imp, decide_eq_false_iff_not, ge_iff_le]
  simp only [UInt8.le_iff_toNat_le, UInt8.lt_iff_toNat_lt, ← UInt8.toNat_inj, UInt8.reduceToNat, ne_eq,
    ← imp_iff_not_or, not_and, and_assoc]

theorem sequenceLength_of_form {more : Bytes} (h : Form v (c :: more)) :
    Transfer.sequenceLength c = more.length + 1 := by
  rw [sequenceLength_eq, leadByte_eq]
  cases h with
  | one ha hv => rw [if_pos ha]; rfl
  | two ha hb hv hmin => rw [if_neg (by omega), if_neg (by omega), if_pos (by omega)]; rfl
  | three ha hb hc hv hmin hscalar =>
    rw [if_neg (by omega), if_neg (by omega), if_neg (by omega), if_pos (by omega)]
    rfl
  | four ha hb hc hd hv hmin hmax =>
    rw [if_neg (by omega), if_neg (by omega), if_neg (by omega), if_neg (by omega), if_pos (by omega)]
    rfl

/-- The checks of the bytes are those of the value. -/
theorem validSequence_iff_form : Transfer.validSequence c rest = true ↔
    ∃ v bs rest', Form v bs ∧ c :: rest = bs ++ rest' := by
  rw [validSequence_iff]
  constructor
  · rintro ⟨hne, hlen, htails, htwo, hthree, hfour⟩
    rcases leadByte_cases c with ⟨hlead, -⟩ | ⟨hlead, hc⟩ | ⟨hlead, hc⟩ | ⟨hlead, hc⟩ | ⟨hlead, hc⟩
    · exact absurd (by rw [sequenceLength_eq, hlead]; rfl) hne
    · exact ⟨_, _, rest, .one hc rfl, rfl⟩
    · have hn : Transfer.sequenceLength c = 2 := by rw [sequenceLength_eq, hlead]; rfl
      rw [hn] at hlen htails
      rcases rest with _ | ⟨b, rest⟩
      · simp at hlen
      · have hb := htails b (by simp)
        have hmin := htwo hn
        exact ⟨_, _, rest, .two hc hb rfl (by have := hb.1; omega), rfl⟩
    · have hn : Transfer.sequenceLength c = 3 := by rw [sequenceLength_eq, hlead]; rfl
      rw [hn] at hlen htails
      rcases rest with _ | ⟨b, _ | ⟨d, rest⟩⟩
      · simp at hlen
      · simp at hlen
      · have hb := htails b (by simp)
        have hd := htails d (by simp)
        obtain ⟨hshort, hsurrogate⟩ := hthree hn
        simp only [List.headD_cons] at hshort hsurrogate
        refine ⟨_, _, rest, .three hc hb hd rfl ?_ ?_, rfl⟩
        · unfold IsTail at hb hd
          omega
        · unfold IsTail at hb hd
          omega
    · have hn : Transfer.sequenceLength c = 4 := by rw [sequenceLength_eq, hlead]; rfl
      rw [hn] at hlen htails
      rcases rest with _ | ⟨b, _ | ⟨d, _ | ⟨e, rest⟩⟩⟩
      · simp at hlen
      · simp at hlen
      · simp at hlen
      · have hb := htails b (by simp)
        have hd := htails d (by simp)
        have he := htails e (by simp)
        obtain ⟨hshort, hmax, hlast⟩ := hfour hn
        simp only [List.headD_cons] at hshort hlast
        refine ⟨_, _, rest, .four hc hb hd he rfl ?_ ?_, rfl⟩
        · unfold IsTail at hb hd he
          omega
        · unfold IsTail at hb hd he
          omega
  · rintro ⟨v, bs, rest', hform, heq⟩
    cases hform with
    | one ha hv =>
      obtain ⟨rfl, rfl⟩ := List.cons.inj heq
      rw [sequenceLength_of_form (.one ha hv)]
      simp
    | two ha hb hv hmin =>
      obtain ⟨rfl, rfl⟩ := List.cons.inj heq
      rw [sequenceLength_of_form (.two ha hb hv hmin)]
      unfold IsTail at hb
      simp [IsTail]
      omega
    | three ha hb hc hv hmin hscalar =>
      obtain ⟨rfl, rfl⟩ := List.cons.inj heq
      rw [sequenceLength_of_form (.three ha hb hc hv hmin hscalar)]
      unfold IsTail at hb hc
      simp [IsTail]
      omega
    | four ha hb hc hd hv hmin hmax =>
      obtain ⟨rfl, rfl⟩ := List.cons.inj heq
      rw [sequenceLength_of_form (.four ha hb hc hd hv hmin hmax)]
      unfold IsTail at hb hc hd
      simp [IsTail]
      omega

end

/-! ## Whole texts -/

section

variable {n : ℕ} {s : Bytes} {cps : List ℕ}

theorem decodeChars_nil (n : ℕ) : Attachment.decodeChars n [] = some cps ↔
    ∃ cs, encode cs = [] ∧ cs.map Char.toNat = cps := by
  have hnil : Attachment.decodeChars n [] = some [] := by cases n <;> rfl
  rw [hnil, Option.some.injEq]
  constructor
  · rintro rfl
    exact ⟨[], rfl, rfl⟩
  · rintro ⟨cs, hcs, rfl⟩
    rw [encode_eq_nil.1 hcs, List.map_nil]

theorem decodeChars_eq_some (hn : s.length ≤ n) :
    Attachment.decodeChars n s = some cps ↔ ∃ cs, encode cs = s ∧ cs.map Char.toNat = cps := by
  induction n generalizing s cps with
  | zero =>
    obtain rfl := List.eq_nil_of_length_eq_zero (Nat.le_zero.1 hn)
    exact decodeChars_nil 0
  | succ n ih =>
    cases s with
    | nil => exact decodeChars_nil _
    | cons b s =>
      have hshort : ∀ {v : ℕ} {bs rest : Bytes}, Form v bs → b :: s = bs ++ rest → rest.length ≤ n := by
        intro v bs rest hform heq
        have hlength := congrArg List.length heq
        have hpos := List.length_pos_iff.2 hform.ne_nil
        simp only [List.length_cons, List.length_append] at hlength hn
        omega
      rw [Attachment.decodeChars]
      constructor
      · intro h
        split at h
        · cases h
        rename_i v rest hchar
        obtain ⟨bs, hform, heq⟩ := decodeChar_eq_some.1 hchar
        obtain ⟨vs, hvs, rfl⟩ := Option.map_eq_some_iff.1 h
        obtain ⟨cs, hcs, rfl⟩ := (ih (hshort hform heq)).1 hvs
        obtain ⟨c, rfl, hc⟩ := form_iff.1 hform
        exact ⟨c :: cs, encode_eq_cons.2 ⟨c, cs, bs, rest, rfl, hform, heq, hcs⟩, rfl⟩
      · rintro ⟨cs, hcs, rfl⟩
        obtain ⟨c, cs, bs, rest, rfl, hform, heq, hrest⟩ := encode_eq_cons.1 hcs
        rw [decodeChar_eq_some.2 ⟨bs, hform, heq⟩]
        simp only [(ih (hshort hform heq)).2 ⟨cs, hrest, rfl⟩, Option.map_some, List.map_cons]

theorem decodeUtf8_eq_some :
    Attachment.decodeUtf8 s = some cps ↔ ∃ cs, encode cs = s ∧ cs.map Char.toNat = cps :=
  decodeChars_eq_some le_rfl

theorem encode_injective : Function.Injective encode := by
  intro cs ds h
  have hcs := decodeUtf8_eq_some.2 ⟨cs, rfl, rfl⟩
  have hds := decodeUtf8_eq_some.2 ⟨ds, h.symm, rfl⟩
  exact List.map_injective_iff.2 (fun _ _ => Char.toNat_inj.1) (Option.some.inj (hcs.symm.trans hds))

theorem appendUtf8_eq {v : ℕ} (h : v ≤ 0x10FFFF) : Attachment.appendUtf8 v = bytesOf v := by
  have hor : ∀ a i x, x < 2 ^ i → a <<< i ||| x = x + a <<< i := fun a i x hx => by
    rw [← Nat.shiftLeft_add_eq_or_of_lt hx, Nat.add_comm]
  have htail : ∀ x, 0x80 ||| x &&& 0x3F = x % 64 + 0x80 := fun x => by
    rw [Nat.and_two_pow_sub_one_eq_mod x 6]
    exact hor 2 6 _ (Nat.mod_lt x (by decide))
  unfold Attachment.appendUtf8 bytesOf
  simp only [htail, Nat.shiftRight_eq_div_pow]
  rcases Nat.lt_or_ge v 0x80 with hone | hone
  · rw [if_pos hone, if_pos (Nat.le_of_lt_succ hone)]
  rw [if_neg (by omega), if_neg (by omega : ¬v ≤ 0x7F)]
  rcases Nat.lt_or_ge v 0x800 with htwo | htwo
  · rw [if_pos htwo, if_pos (by omega), show 0xC0 ||| v / 2 ^ 6 = _ from hor 6 5 _ (by omega),
      Nat.mod_eq_of_lt (b := 32) (by omega)]
    rfl
  rw [if_neg (by omega), if_neg (by omega : ¬v ≤ 0x7FF)]
  rcases Nat.lt_or_ge v 0x10000 with hthree | hthree
  · rw [if_pos hthree, if_pos (by omega), show 0xE0 ||| v / 2 ^ 12 = _ from hor 14 4 _ (by omega),
      Nat.mod_eq_of_lt (b := 16) (by omega)]
    rfl
  · rw [if_neg (by omega), if_neg (by omega), show 0xF0 ||| v / 2 ^ 18 = _ from hor 30 3 _ (by omega),
      Nat.mod_eq_of_lt (b := 8) (by omega)]
    rfl

theorem flatMap_appendUtf8 (cs : List Char) :
    (cs.map Char.toNat).flatMap Attachment.appendUtf8 = encode cs := by
  rw [List.flatMap_map]
  refine List.flatMap_congr fun c _ => ?_
  have hscalar : c.toNat < 0xD800 ∨ 0xDFFF < c.toNat ∧ c.toNat < 0x110000 := c.valid
  exact appendUtf8_eq (by omega)

theorem scalar_of_showable {v : ℕ} (h : Chat.showable v = true) : v < 0xD800 ∨ 0xDFFF < v ∧ v ≤ 0x10FFFF := by
  simp only [Chat.showable, Bool.and_eq_true, Bool.not_eq_true', Bool.or_eq_false_iff, Bool.and_eq_false_iff,
    decide_eq_false_iff_not] at h
  omega

/-- The label check reads a character as the decoder does, and refuses those that are not to be shown. -/
theorem validChars_cons {c : UInt8} {rest : Bytes} : Chat.validChars (n + 1) (c :: rest) = true ↔
    ∃ v rest', Attachment.decodeChar c rest = some (v, rest') ∧ Chat.showable v = true ∧
      Chat.validChars n rest' = true := by
  rw [Chat.validChars]
  cases hlead : Chat.leadByte c with
  | none => simp [Attachment.decodeChar, hlead]
  | some p =>
    obtain ⟨bits, len⟩ := p
    simp only [Bool.and_eq_true, decide_eq_true_eq, List.all_eq_true, isTail_iff]
    constructor
    · rintro ⟨⟨⟨⟨hlen, htails⟩, hmin⟩, hshow⟩, hrest⟩
      rw [foldl_tails htails] at hmin hshow
      exact ⟨_, _, (decodeChar_of_lead hlead).2
        ⟨hlen, htails, rfl, fun _ => hmin, scalar_of_showable hshow, rfl⟩, hshow, hrest⟩
    · rintro ⟨v, rest', hchar, hshow, hrest⟩
      obtain ⟨hlen, htails, rfl, hmin, -, rfl⟩ := (decodeChar_of_lead hlead).1 hchar
      rw [foldl_tails htails]
      refine ⟨⟨⟨⟨hlen, htails⟩, ?_⟩, hshow⟩, hrest⟩
      rcases Nat.lt_or_ge 1 len with hmore | hone
      · exact hmin hmore
      · obtain rfl | rfl : len = 0 ∨ len = 1 := by omega
        all_goals exact Nat.zero_le _

theorem validChars_iff : Chat.validChars n s = true ↔
    ∃ cps, Attachment.decodeChars n s = some cps ∧ ∀ v ∈ cps, Chat.showable v = true := by
  induction n generalizing s with
  | zero => cases s <;> simp [Chat.validChars, Attachment.decodeChars]
  | succ n ih =>
    cases s with
    | nil => simp [Chat.validChars, Attachment.decodeChars]
    | cons c rest =>
      rw [validChars_cons, Attachment.decodeChars]
      constructor
      · rintro ⟨v, rest', hchar, hshow, hrest⟩
        obtain ⟨cps, hcps, hall⟩ := ih.1 hrest
        refine ⟨v :: cps, ?_, List.forall_mem_cons.2 ⟨hshow, hall⟩⟩
        simp only [hchar, hcps, Option.map_some]
      · rintro ⟨cps, hcps, hall⟩
        split at hcps
        · cases hcps
        rename_i v rest' hchar
        obtain ⟨vs, hvs, rfl⟩ := Option.map_eq_some_iff.1 hcps
        exact ⟨v, rest', hchar, hall v List.mem_cons_self,
          ih.2 ⟨vs, hvs, fun v hv => hall v (List.mem_cons_of_mem _ hv)⟩⟩

/-- What is kept is the form of a character. -/
theorem sequence_eq {v : ℕ} {c : UInt8} {rest bs rest' : Bytes} (hform : Form v bs)
    (heq : c :: rest = bs ++ rest') : c :: rest.take (Transfer.sequenceLength c - 1) = bs ∧
      rest.drop (Transfer.sequenceLength c - 1) = rest' := by
  cases bs with
  | nil => exact absurd rfl hform.ne_nil
  | cons b more =>
    rw [List.cons_append] at heq
    obtain ⟨rfl, rfl⟩ := List.cons.inj heq
    rw [sequenceLength_of_form hform, Nat.add_sub_cancel]
    exact ⟨by rw [List.take_left], by rw [List.drop_left]⟩

theorem sanitizeChars_wellFormed (n : ℕ) (s : Bytes) : WellFormed (Transfer.sanitizeChars n s) := by
  induction n generalizing s with
  | zero => cases s <;> exact ⟨[], rfl⟩
  | succ n ih =>
    cases s with
    | nil => exact ⟨[], rfl⟩
    | cons c rest =>
      rw [Transfer.sanitizeChars]
      split_ifs with hvalid
      · obtain ⟨v, bs, rest', hform, heq⟩ := validSequence_iff_form.1 hvalid
        obtain ⟨ch, -, hch⟩ := form_iff.1 hform
        rw [(sequence_eq hform heq).1]
        exact WellFormed.append ⟨[ch], by rw [encode_cons, hch, encode_nil, List.append_nil]⟩ (ih _)
      · exact WellFormed.append (s := [95]) ⟨['_'], rfl⟩ (ih rest)

theorem sanitizeChars_eq_self (hn : s.length ≤ n) (h : WellFormed s) : Transfer.sanitizeChars n s = s := by
  induction n generalizing s with
  | zero => rw [List.eq_nil_of_length_eq_zero (Nat.le_zero.1 hn)]; rfl
  | succ n ih =>
    cases s with
    | nil => rfl
    | cons c rest =>
      obtain ⟨cs, hcs⟩ := h
      obtain ⟨ch, cs, bs, rest', rfl, hform, heq, hrest⟩ := encode_eq_cons.1 hcs
      obtain ⟨hkept, hdrop⟩ := sequence_eq hform heq
      have hshort : rest'.length ≤ n := by
        have hlength := congrArg List.length heq
        have hpos := List.length_pos_iff.2 hform.ne_nil
        simp only [List.length_cons, List.length_append] at hlength hn
        omega
      rw [Transfer.sanitizeChars, if_pos (validSequence_iff_form.2 ⟨_, bs, rest', hform, heq⟩), hkept,
        hdrop, ih hshort ⟨cs, hrest⟩, heq]

end

/-! ## The three readers -/

def Control (c : Char) : Prop := c.toNat < 0x20 ∨ 0x7F ≤ c.toNat ∧ c.toNat ≤ 0x9F

/-- The embeddings and overrides of the text's direction, and the isolates. -/
def Directional (c : Char) : Prop :=
  0x202A ≤ c.toNat ∧ c.toNat ≤ 0x202E ∨ 0x2066 ≤ c.toNat ∧ c.toNat ≤ 0x2069

theorem showable_iff (c : Char) : Chat.showable c.toNat = true ↔ ¬Control c ∧ ¬Directional c := by
  have hscalar : c.toNat < 0xD800 ∨ 0xDFFF < c.toNat ∧ c.toNat < 0x110000 := c.valid
  simp only [Chat.showable, Control, Directional, Bool.and_eq_true, Bool.not_eq_true', Bool.or_eq_false_iff,
    Bool.and_eq_false_iff, decide_eq_false_iff_not]
  omega

theorem decodeUtf8_isSome_iff {s : Bytes} : (Attachment.decodeUtf8 s).isSome = true ↔ WellFormed s := by
  simp only [Option.isSome_iff_exists, decodeUtf8_eq_some, WellFormed]
  constructor
  · rintro ⟨_, cs, hcs, -⟩
    exact ⟨cs, hcs⟩
  · rintro ⟨cs, hcs⟩
    exact ⟨_, cs, hcs, rfl⟩

theorem sanitizeUtf8_wellFormed (s : Bytes) : WellFormed (Transfer.sanitizeUtf8 s) :=
  sanitizeChars_wellFormed _ s

theorem sanitizeUtf8_eq_self_iff {s : Bytes} : Transfer.sanitizeUtf8 s = s ↔ WellFormed s := by
  constructor
  · intro h
    rw [← h]
    exact sanitizeUtf8_wellFormed s
  · exact sanitizeChars_eq_self le_rfl

/-- The decoder takes the well-formed texts, and writing the characters it reads gives the text back; the
label check takes those of them that have no control character and none that changes the direction; and
replacing what is not well-formed gives a well-formed text, the same one if there was nothing to replace. -/
theorem readers_agree (s : Bytes) :
    ((Attachment.decodeUtf8 s).isSome = true ↔ WellFormed s) ∧
    (∀ cps, Attachment.decodeUtf8 s = some cps → cps.flatMap Attachment.appendUtf8 = s) ∧
    (Chat.validLabel s = true ↔ ∃ cs, encode cs = s ∧ ∀ c ∈ cs, ¬Control c ∧ ¬Directional c) ∧
    WellFormed (Transfer.sanitizeUtf8 s) ∧ (Transfer.sanitizeUtf8 s = s ↔ WellFormed s) := by
  refine ⟨decodeUtf8_isSome_iff, fun cps hcps => ?_, ?_, sanitizeUtf8_wellFormed s, sanitizeUtf8_eq_self_iff⟩
  · obtain ⟨cs, rfl, rfl⟩ := decodeUtf8_eq_some.1 hcps
    exact flatMap_appendUtf8 cs
  · rw [Chat.validLabel, validChars_iff]
    constructor
    · rintro ⟨cps, hcps, hall⟩
      obtain ⟨cs, hcs, rfl⟩ := decodeUtf8_eq_some.1 hcps
      exact ⟨cs, hcs, fun c hc => (showable_iff c).1 (hall _ (List.mem_map_of_mem hc))⟩
    · rintro ⟨cs, hcs, hall⟩
      refine ⟨cs.map Char.toNat, decodeUtf8_eq_some.2 ⟨cs, hcs, rfl⟩, fun v hv => ?_⟩
      obtain ⟨c, hc, rfl⟩ := List.mem_map.1 hv
      exact (showable_iff c).2 (hall c hc)

end PqSuite
