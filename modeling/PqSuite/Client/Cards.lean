import Mathlib.Data.FinEnum
import Mathlib.Data.List.TakeWhile
import PqSuite.Client.Bundles
import PqSuite.Lib.Base64
import PqSuite.Protocol.FileHeader

/-!
# Contact cards

A card is a prefix with the version, and behind it the bytes of the card and a short checksum in base64url.
The decoder of `sharing.cpp` shifts digits into a 32-bit word and takes bytes out of it; it accepts the
spellings that the encoder writes and no others (`b64Decode_eq_some`). A reader of cards first drops all
whitespace, so a card may be wrapped anywhere.
-/

namespace PqSuite

variable {c : UInt8} {bits : ℕ}

/-! ## base64url without padding -/

def b64Alphabet : Bytes := ascii "ABCDEFGHIJKLMNOPQRSTUVWXYZabcdefghijklmnopqrstuvwxyz0123456789-_"

def b64Value (c : UInt8) : Option UInt32 :=
  if 65 ≤ c ∧ c ≤ 90 then some (c - 65).toUInt32
  else if 97 ≤ c ∧ c ≤ 122 then some ((c - 97).toUInt32 + 26)
  else if 48 ≤ c ∧ c ≤ 57 then some ((c - 48).toUInt32 + 52)
  else if c = 45 then some 62
  else if c = 95 then some 63
  else none

def b64Encode : Bytes → Bytes
  | [] => []
  | [a] =>
    let v := a.toUInt32 <<< 16
    [letter (v >>> 18), letter (v >>> 12)]
  | [a, b] =>
    let v := a.toUInt32 <<< 16 ||| b.toUInt32 <<< 8
    [letter (v >>> 18), letter (v >>> 12), letter (v >>> 6)]
  | a :: b :: c :: rest =>
    let v := a.toUInt32 <<< 16 ||| b.toUInt32 <<< 8 ||| c.toUInt32
    letter (v >>> 18) :: letter (v >>> 12) :: letter (v >>> 6) :: letter v :: b64Encode rest
where
  letter (v : UInt32) : UInt8 := b64Alphabet.getD (v &&& 63).toNat 0

/-- The bits that were read are the lowest of `acc`; what is above them was written already. -/
structure B64State where
  acc : UInt32
  bits : ℕ
  out : Bytes

def b64Step (st : B64State) (c : UInt8) : Option B64State :=
  (b64Value c).map fun v =>
    let acc := st.acc <<< 6 ||| v
    let bits := st.bits + 6
    if bits ≥ 8 then ⟨acc, bits - 8, st.out ++ [(acc >>> UInt32.ofNat (bits - 8) &&& 255).toUInt8]⟩
    else ⟨acc, bits, st.out⟩

/-- The bits that are left have to be zero. -/
def B64State.finish (st : B64State) : Option Bytes :=
  if st.bits > 0 ∧ st.acc &&& ((1 <<< UInt32.ofNat st.bits) - 1) ≠ 0 then none else some st.out

def b64Decode (s : Bytes) : Option Bytes :=
  if s.length % 4 = 1 then none else (s.foldlM b64Step ⟨0, 0, []⟩).bind B64State.finish

def b64Char (d : Base64.Digit) : UInt8 := b64Alphabet.getD d.val 0

theorem b64Value_b64Char (d : Base64.Digit) : b64Value (b64Char d) = some (UInt32.ofNat d.val) := by
  revert d
  decide +kernel

theorem b64Value_cases (c : UInt8) : b64Value c = none ∨ ∃ d, c = b64Char d := by
  have htable : ∀ c : UInt8, b64Value c = none ∨ c = b64Char (Fin.ofNat 64 ((b64Value c).getD 0).toNat) := by
    decide +kernel
  exact (htable c).imp_right fun h => ⟨_, h⟩

/-! ### The encoder -/

theorem toNat_or_of_lt {v w : UInt32} {k : ℕ} (hv : 2 ^ k ∣ v.toNat) (hw : w.toNat < 2 ^ k) :
    (v ||| w).toNat = v.toNat + w.toNat := by
  obtain ⟨n, hn⟩ := hv
  rw [UInt32.toNat_or, hn, ← Nat.two_pow_add_eq_or_of_lt hw]

theorem letter_eq (v : UInt32) : b64Encode.letter v = b64Char (Base64.digit v.toNat) := by
  rw [b64Encode.letter, b64Char, Base64.val_digit, UInt32.toNat_and]
  exact congrArg (b64Alphabet.getD · 0) (Nat.and_two_pow_sub_one_eq_mod v.toNat 6)

theorem letter_shift (v : UInt32) {k : UInt32} (hk : k.toNat < 32) :
    b64Encode.letter (v >>> k) = b64Char (Base64.digit (v.toNat / 2 ^ k.toNat)) := by
  rw [letter_eq, UInt32.toNat_shiftRight, Nat.shiftRight_eq_div_pow, Nat.mod_eq_of_lt hk]

theorem toNat_shl (a : UInt8) {k : UInt32} (hk : k.toNat ≤ 24) :
    (a.toUInt32 <<< k).toNat = a.toNat * 2 ^ k.toNat := by
  have hpow : 2 ^ k.toNat ≤ 2 ^ 24 := Nat.pow_le_pow_right (by decide) hk
  have hlt : a.toNat * 2 ^ k.toNat < 2 ^ 32 := 
    (Nat.mul_lt_mul_of_lt_of_le a.toNat_lt hpow (by decide)).trans_eq (by decide)
  rw [UInt32.toNat_shiftLeft, UInt8.toNat_toUInt32, Nat.shiftLeft_eq,
    Nat.mod_eq_of_lt (Nat.lt_of_le_of_lt hk (by decide)), Nat.mod_eq_of_lt hlt]

theorem b64Encode_eq (bs : Bytes) : b64Encode bs = (Base64.digits bs).map b64Char := by
  fun_induction b64Encode bs with
  | case1 => rfl
  | case2 a v =>
    have hv : v.toNat = a.toNat * 65536 := toNat_shl a (by decide)
    rw [letter_shift v (by decide), letter_shift v (by decide), hv]
    simp only [Base64.digits, List.map_cons, List.map_nil, UInt32.reduceToNat]
    rw [show a.toNat * 65536 / 2 ^ 18 = a.toNat / 4 by omega,
      show a.toNat * 65536 / 2 ^ 12 = a.toNat * 16 by omega]
  | case3 a b v =>
    have ha := a.toNat_lt
    have hb := b.toNat_lt
    have hv : v.toNat = (a.toNat * 256 + b.toNat) * 256 := by
      have hhi : (a.toUInt32 <<< 16).toNat = a.toNat * 65536 := toNat_shl a (by decide)
      have hlo : (b.toUInt32 <<< 8).toNat = b.toNat * 256 := toNat_shl b (by decide)
      rw [toNat_or_of_lt (k := 16) (by rw [hhi]; omega) (by omega), hhi, hlo]
      ring
    rw [letter_shift v (by decide), letter_shift v (by decide), letter_shift v (by decide), hv]
    simp only [Base64.digits, List.map_cons, List.map_nil, UInt32.reduceToNat]
    generalize a.toNat * 256 + b.toNat = n
    rw [show n * 256 / 2 ^ 18 = n / 1024 by omega, show n * 256 / 2 ^ 12 = n / 16 by omega,
      show n * 256 / 2 ^ 6 = n * 4 by omega]
  | case4 a b c rest v ih =>
    have hb := b.toNat_lt
    have hc := c.toNat_lt
    have hv : v.toNat = (a.toNat * 256 + b.toNat) * 256 + c.toNat := by
      have hhi : (a.toUInt32 <<< 16).toNat = a.toNat * 65536 := toNat_shl a (by decide)
      have hmid : (b.toUInt32 <<< 8).toNat = b.toNat * 256 := toNat_shl b (by decide)
      have htwo : (a.toUInt32 <<< 16 ||| b.toUInt32 <<< 8).toNat = a.toNat * 65536 + b.toNat * 256 := by
        rw [toNat_or_of_lt (k := 16) (by rw [hhi]; omega) (by omega), hhi, hmid]
      rw [toNat_or_of_lt (k := 8) (by rw [htwo]; omega) (by rw [UInt8.toNat_toUInt32]; omega), htwo,
        UInt8.toNat_toUInt32]
      ring
    rw [letter_shift v (by decide), letter_shift v (by decide), letter_shift v (by decide), letter_eq, hv, ih]
    rfl

/-! ### The decoder -/

def b64Push (acc : UInt32) (d : Base64.Digit) : UInt32 := acc <<< 6 ||| UInt32.ofNat d.val

theorem toNat_b64Push (acc : UInt32) (d : Base64.Digit) :
    (b64Push acc d).toNat = (acc.toNat * 64 + d.val) % 2 ^ 32 := by
  have hd := d.isLt
  have hshift : (acc <<< 6).toNat = acc.toNat * 64 % 2 ^ 32 := by
    rw [UInt32.toNat_shiftLeft, Nat.shiftLeft_eq]
    rfl
  have hval : (UInt32.ofNat d.val).toNat = d.val := by
    rw [UInt32.toNat_ofNat', Nat.mod_eq_of_lt (by omega)]
  rw [b64Push, toNat_or_of_lt (k := 6) (by rw [hshift]; omega) (by omega), hshift, hval]
  omega

theorem b64Step_first (acc : UInt32) (out : Bytes) (d : Base64.Digit) :
    b64Step ⟨acc, 0, out⟩ (b64Char d) = some ⟨b64Push acc d, 6, out⟩ := by
  rw [b64Step, b64Value_b64Char]
  rfl

theorem b64Step_next (acc : UInt32) (hbits : bits + 2 ≤ 6) (out : Bytes) (d : Base64.Digit) :
    b64Step ⟨acc, bits + 2, out⟩ (b64Char d) = some ⟨b64Push acc d, bits,
      out ++ [Base64.byte ((b64Push acc d).toNat / 2 ^ bits)]⟩ := by
  have hbyte (w : UInt32) : (w >>> UInt32.ofNat bits &&& 255).toUInt8 = Base64.byte (w.toNat / 2 ^ bits) := by
    refine (Base64.byte_eq ?_).symm
    rw [UInt32.toNat_toUInt8, UInt32.toNat_and, UInt32.toNat_shiftRight, Nat.shiftRight_eq_div_pow,
      UInt32.toNat_ofNat', Nat.mod_eq_of_lt (show bits < 2 ^ 32 by omega),
      Nat.mod_eq_of_lt (show bits < 32 by omega), show (255 : UInt32).toNat = 2 ^ 8 - 1 from rfl,
      Nat.and_two_pow_sub_one_eq_mod, Nat.mod_mod]
  rw [b64Step, b64Value_b64Char]
  simp only [Option.map_some]
  rw [if_pos (by omega), show bits + 2 + 6 - 8 = bits by omega, hbyte, b64Push]

theorem finish_eq (acc : UInt32) (hbits : bits < 32) (out : Bytes) :
    B64State.finish ⟨acc, bits, out⟩ = if acc.toNat % 2 ^ bits = 0 then some out else none := by
  have hmask : ∀ b : Fin 32, ((1 <<< UInt32.ofNat b.val : UInt32) - 1).toNat = 2 ^ b.val - 1 := by decide
  have hrest : acc &&& ((1 <<< UInt32.ofNat bits) - 1) ≠ 0 ↔ acc.toNat % 2 ^ bits ≠ 0 := by
    rw [Ne, ← UInt32.toNat_inj, UInt32.toNat_and, hmask ⟨bits, hbits⟩, Nat.and_two_pow_sub_one_eq_mod]
    rfl
  simp only [B64State.finish, hrest]
  by_cases hzero : acc.toNat % 2 ^ bits = 0
  · rw [if_pos hzero, if_neg fun h => h.2 hzero]
  · have hpos : 0 < bits := by
      refine Nat.pos_of_ne_zero ?_
      rintro rfl
      exact hzero (Nat.mod_one _)
    rw [if_neg hzero, if_pos ⟨hpos, hzero⟩]

theorem byte_congr {m n : ℕ} (h : m % 256 = n % 256) : Base64.byte m = Base64.byte n :=
  Base64.byte_eq (h.trans (Base64.toNat_byte n).symm)

/-- Two digits from the start of a group, whatever the word still holds above them. -/
theorem run_two (acc : UInt32) (out : Bytes) (p q : Base64.Digit) :
    [b64Char p, b64Char q].foldlM b64Step ⟨acc, 0, out⟩ = some ⟨b64Push (b64Push acc p) q, 4,
      out ++ [Base64.byte ((p.val * 64 + q.val) / 16)]⟩ := by
  have hbyte : Base64.byte ((b64Push (b64Push acc p) q).toNat / 2 ^ 4) =
      Base64.byte ((p.val * 64 + q.val) / 16) := by
    refine byte_congr ?_
    rw [toNat_b64Push, toNat_b64Push]
    omega
  rw [List.foldlM_cons, b64Step_first, Option.bind_eq_bind, Option.bind_some, List.foldlM_cons,
    b64Step_next _ (by decide), hbyte]
  rfl

theorem run_three (acc : UInt32) (out : Bytes) (p q r : Base64.Digit) :
    [b64Char p, b64Char q, b64Char r].foldlM b64Step ⟨acc, 0, out⟩ =
      some ⟨b64Push (b64Push (b64Push acc p) q) r, 2,
        out ++ [Base64.byte (((p.val * 64 + q.val) * 64 + r.val) / 4 / 256),
          Base64.byte (((p.val * 64 + q.val) * 64 + r.val) / 4)]⟩ := by
  have hbyte : Base64.byte ((b64Push (b64Push (b64Push acc p) q) r).toNat / 2 ^ 2) =
      Base64.byte (((p.val * 64 + q.val) * 64 + r.val) / 4) := by
    refine byte_congr ?_
    rw [toNat_b64Push, toNat_b64Push, toNat_b64Push]
    omega
  have hfirst : (p.val * 64 + q.val) / 16 = ((p.val * 64 + q.val) * 64 + r.val) / 4 / 256 := by omega
  change ([b64Char p, b64Char q] ++ [b64Char r]).foldlM b64Step _ = _
  rw [List.foldlM_append, run_two, Option.bind_eq_bind, Option.bind_some, List.foldlM_cons,
    b64Step_next _ (by decide), hbyte, hfirst, List.append_assoc]
  rfl

theorem run_four (acc : UInt32) (out : Bytes) (p q r s : Base64.Digit) :
    [b64Char p, b64Char q, b64Char r, b64Char s].foldlM b64Step ⟨acc, 0, out⟩ =
      some ⟨b64Push (b64Push (b64Push (b64Push acc p) q) r) s, 0,
        out ++ [Base64.byte ((((p.val * 64 + q.val) * 64 + r.val) * 64 + s.val) / 65536),
          Base64.byte ((((p.val * 64 + q.val) * 64 + r.val) * 64 + s.val) / 256),
          Base64.byte (((p.val * 64 + q.val) * 64 + r.val) * 64 + s.val)]⟩ := by
  have hbyte : Base64.byte ((b64Push (b64Push (b64Push (b64Push acc p) q) r) s).toNat / 2 ^ 0) =
      Base64.byte (((p.val * 64 + q.val) * 64 + r.val) * 64 + s.val) := by
    refine byte_congr ?_
    rw [toNat_b64Push, toNat_b64Push, toNat_b64Push, toNat_b64Push]
    omega
  have hfirst : ((p.val * 64 + q.val) * 64 + r.val) / 4 / 256 =
      (((p.val * 64 + q.val) * 64 + r.val) * 64 + s.val) / 65536 := by omega
  have hsecond : ((p.val * 64 + q.val) * 64 + r.val) / 4 =
      (((p.val * 64 + q.val) * 64 + r.val) * 64 + s.val) / 256 := by omega
  change ([b64Char p, b64Char q, b64Char r] ++ [b64Char s]).foldlM b64Step _ = _
  rw [List.foldlM_append, run_three, Option.bind_eq_bind, Option.bind_some, List.foldlM_cons,
    b64Step_next _ (by decide), hbyte, hfirst, hsecond, List.append_assoc]
  rfl

theorem low_bits (acc : UInt32) (d : Base64.Digit) (hbits : bits ≤ 6) :
    (b64Push acc d).toNat % 2 ^ bits = d.val % 2 ^ bits := by
  have hword : 2 ^ bits ∣ 2 ^ 32 := Nat.pow_dvd_pow 2 (by omega)
  have hdigit : 2 ^ bits ∣ 64 := Nat.pow_dvd_pow 2 hbits
  rw [toNat_b64Push, Nat.mod_mod_of_dvd _ hword, Nat.add_mod, Nat.mod_eq_zero_of_dvd (hdigit.mul_left _),
    Nat.zero_add, Nat.mod_mod]

theorem run_digits (acc : UInt32) (out : Bytes) {ds : List Base64.Digit} (hlen : ds.length % 4 ≠ 1) :
    ((ds.map b64Char).foldlM b64Step ⟨acc, 0, out⟩).bind B64State.finish =
      (Base64.bytes ds).map (out ++ ·) := by
  fun_induction Base64.bytes ds generalizing acc out with
  | case1 => rw [List.map_nil, List.foldlM_nil]; exact congrArg some (List.append_nil out).symm
  | case2 => exact absurd rfl hlen
  | case3 p q hq =>
    simp only [List.map_cons, List.map_nil]
    rw [run_two, Option.bind_some, finish_eq _ (by decide), low_bits _ _ (by decide)]
    exact if_pos hq
  | case4 p q hq =>
    simp only [List.map_cons, List.map_nil]
    rw [run_two, Option.bind_some, finish_eq _ (by decide), low_bits _ _ (by decide)]
    exact if_neg hq
  | case5 p q r v =>
    rename_i hr
    simp only [List.map_cons, List.map_nil]
    rw [run_three, Option.bind_some, finish_eq _ (by decide), low_bits _ _ (by decide)]
    exact if_pos hr
  | case6 p q r hr =>
    simp only [List.map_cons, List.map_nil]
    rw [run_three, Option.bind_some, finish_eq _ (by decide), low_bits _ _ (by decide)]
    exact if_neg hr
  | case7 p q r s rest v =>
    rename_i ih
    have hrest : rest.length % 4 ≠ 1 := by
      simp only [List.length_cons] at hlen
      omega
    change (([b64Char p, b64Char q, b64Char r, b64Char s] ++ rest.map b64Char).foldlM b64Step _).bind _ = _
    rw [List.foldlM_append, run_four, Option.bind_eq_bind, Option.bind_some, ih _ _ hrest, Option.map_map]
    refine congrArg (Option.map · _) (funext fun bs => ?_)
    exact List.append_assoc ..

theorem bytes_eq_none {ds : List Base64.Digit} (hlen : ds.length % 4 = 1) : Base64.bytes ds = none := by
  fun_induction Base64.bytes ds with
  | case1 | case3 | case4 | case5 | case6 => simp at hlen
  | case2 => rfl
  | case7 p q r s rest v =>
    rename_i ih
    rw [ih, Option.map_none]
    simp only [List.length_cons] at hlen
    omega

theorem b64Decode_map (ds : List Base64.Digit) : b64Decode (ds.map b64Char) = Base64.bytes ds := by
  rw [b64Decode, List.length_map]
  split_ifs with hlen
  · exact (bytes_eq_none hlen).symm
  · rw [run_digits 0 [] hlen]
    exact Option.map_id'

theorem foldlM_b64Step_eq_none {s : Bytes} (hc : c ∈ s) (hvalue : b64Value c = none) (st : B64State) :
    s.foldlM b64Step st = none := by
  induction s generalizing st with
  | nil => cases hc
  | cons c' s ih =>
    rw [List.foldlM_cons, Option.bind_eq_bind]
    rcases List.mem_cons.1 hc with rfl | hc
    · rw [b64Step, hvalue, Option.map_none, Option.bind_none]
    · exact Option.bind_eq_none_iff.2 fun st' _ => ih hc st'

theorem exists_digits {s : Bytes} (h : ∀ c ∈ s, b64Value c ≠ none) :
    ∃ ds : List Base64.Digit, s = ds.map b64Char := by
  induction s with
  | nil => exact ⟨[], rfl⟩
  | cons c s ih =>
    obtain ⟨ds, rfl⟩ := ih fun c hc => h c (List.mem_cons_of_mem _ hc)
    obtain ⟨d, rfl⟩ := (b64Value_cases c).resolve_left (h c List.mem_cons_self)
    exact ⟨d :: ds, rfl⟩

theorem b64Decode_b64Encode (bs : Bytes) : b64Decode (b64Encode bs) = some bs := by
  rw [b64Encode_eq, b64Decode_map, Base64.bytes_digits]

/-- No text but the encoding of some bytes is accepted as theirs. -/
theorem b64Decode_eq_some {s bs : Bytes} : b64Decode s = some bs ↔ s = b64Encode bs := by
  constructor
  · intro h
    by_cases hall : ∀ c ∈ s, b64Value c ≠ none
    · obtain ⟨ds, rfl⟩ := exists_digits hall
      rw [b64Decode_map, Base64.bytes_eq_some] at h
      rw [h, b64Encode_eq]
    · push Not at hall
      obtain ⟨c, hc, hvalue⟩ := hall
      rw [b64Decode, foldlM_b64Step_eq_none hc hvalue, Option.bind_none, ite_self] at h
      cases h
  · rintro rfl
    exact b64Decode_b64Encode bs

/-! ## Cards -/

structure ContactCard where
  /-- The name that the sender chose. -/
  name : Bytes
  pubKem : Bytes
  pubDsa : Bytes
  server : Bytes
  deriving DecidableEq

structure ImportedCard where
  name : Bytes
  pubKem : Bytes
  pubDsa : Bytes
  server : Bytes
  /-- Not in a card of the first version, whose encryption key nobody has verified. -/
  bundle : Option IdentityBundle := none
  sendToken : Bytes := []

structure CardError where
  said ::
  message : String
  deriving DecidableEq

namespace CardError

def damaged : CardError :=
  .said "The contact card is damaged or incomplete. Paste only the card, exactly as it was sent."

def notACard : CardError := .said "That doesn't look like a contact card."

def incompatible : CardError := .said "This contact card was made by an incompatible version of the app."

def wrongKeys : CardError := .said "The keys in this card are not ML-KEM-768 / ML-DSA-65 public keys."

def invalidServer : CardError := .said "The contact card contains an invalid relay server address."

end CardError

def cardPrefix : Bytes := ascii "pqft-contact-1:"
def card2Prefix : Bytes := ascii "pqft-contact-2:"
def card3Prefix : Bytes := ascii "pqft-contact-3:"
def cardMagic : UInt32 := 0x50514343
def cardVersion : UInt32 := 1
def maxCardNameBytes : ℕ := 64
def maxCardServerBytes : ℕ := 255
def cardChecksumBytes : ℕ := 4

section Cards

open Reader

variable (C : ChatCrypto)

def withChecksum (payload : Bytes) : Bytes := payload ++ (C.sha256 payload).1.take cardChecksumBytes

/-- The card without its magic number and version. -/
def ContactCard.write (card : ContactCard) : Bytes :=
  writeString card.name ++ writeBlob card.pubKem ++ writeBlob card.pubDsa ++ writeString card.server

def encodeContactCard (card : ContactCard) : Bytes :=
  cardPrefix ++ b64Encode (withChecksum C (writeU32 cardMagic ++ writeU32 cardVersion ++ card.write))

def encodeContactCardV2 (bundleRaw : Bytes) : Bytes := card2Prefix ++ b64Encode (withChecksum C bundleRaw)

def encodeContactCardV3 (bundleRaw sendToken : Bytes) : Bytes :=
  card3Prefix ++ b64Encode (withChecksum C (writeBlob bundleRaw ++ writeBlob sendToken))

def compact (text : Bytes) : Bytes := text.filter fun c => !isSpace c

/-- `std::string::find`. -/
def findText (pattern text : Bytes) : Option ℕ := text.tails.findIdx? pattern.isPrefixOf

/-- The letters behind the first occurrence of a card's prefix. -/
def cardBody (pattern text : Bytes) : Option Bytes :=
  (findText pattern text).map fun start =>
    (text.drop (start + pattern.length)).takeWhile fun c => (b64Value c).isSome

/-- The bytes of a card, if the checksum behind them is theirs. -/
def checkedPayload (body : Bytes) : Option Bytes := do
  let raw ← b64Decode body
  let payload := raw.take (raw.length - cardChecksumBytes)
  if raw.length ≤ cardChecksumBytes then none
  else if (C.sha256 payload).1.take cardChecksumBytes = raw.drop (raw.length - cardChecksumBytes) then
    some payload
  else none

def cardReader : Reader UInt8 ContactCard := do
  let name ← blob maxCardNameBytes
  let kem ← blob FileProtocol.maxKemCiphertextSize
  let dsa ← blob FileProtocol.maxSignatureSize
  let server ← blob maxCardServerBytes
  return ⟨name, kem, dsa, server⟩

/-- The bundle and the send token of a card of the third version. -/
def bundleTokenReader : Reader UInt8 (Bytes × Bytes) := do
  let bundleRaw ← blob (16 * 1024)
  let token ← blob 64
  guard (token = [] ∨ token.length = 32)
  return (bundleRaw, token)

def orFail {α : Type} (e : CardError) : Option α → Except CardError α
  | some a => .ok a
  | none => .error e

def validServer (server : Bytes) : Bool := server = [] || (parseServerAddress server).isSome

def decodeContactCard (text : Bytes) : Except CardError ContactCard := do
  let body ← orFail .notACard (cardBody cardPrefix (compact text))
  let payload ← orFail .damaged (checkedPayload C body)
  let (_, rest) ← orFail .notACard ((readU32 payload).filter (·.1 = cardMagic))
  let (_, rest) ← orFail .incompatible ((readU32 rest).filter (·.1 = cardVersion))
  let card ← orFail .damaged (whole cardReader rest)
  if card.pubKem.length ≠ C.kemPublicKeySize ∨ card.pubDsa.length ≠ C.sigPublicKeySize then
    .error .wrongKeys
  else if ¬validServer card.server then .error .invalidServer
  else .ok card

def importedCard (bundle : IdentityBundle) (token : Bytes) : ImportedCard where
  name := bundle.displayName
  pubKem := bundle.encryptionKey
  pubDsa := bundle.signingKey
  server := bundle.relayHint
  bundle := some bundle
  sendToken := token

def importBundle (bundleRaw token : Bytes) : Except CardError ImportedCard := do
  let bundle ← orFail (.said (identityBundleError C bundleRaw)) (parseIdentityBundle C bundleRaw)
  if ¬validServer bundle.relayHint then .error .invalidServer else .ok (importedCard bundle token)

/-- The newest version that the text has. -/
def decodeAnyContactCard (text : Bytes) : Except CardError ImportedCard :=
  match cardBody card3Prefix (compact text) with
  | some body => do
    let payload ← orFail .damaged (checkedPayload C body)
    let (bundleRaw, token) ← orFail .damaged (whole bundleTokenReader payload)
    importBundle C bundleRaw token
  | none =>
    match cardBody card2Prefix (compact text) with
    | some body => do
      let bundleRaw ← orFail .damaged (checkedPayload C body)
      importBundle C bundleRaw []
    | none => do
      let card ← decodeContactCard C text
      return ⟨card.name, card.pubKem, card.pubDsa, card.server, none, []⟩

end Cards

/-! ## Reading cards back -/

/-- The second text is the first with whitespace put in. -/
inductive Spaced : Bytes → Bytes → Prop
  | nil : Spaced [] []
  | keep {text spaced : Bytes} (c : UInt8) : Spaced text spaced → Spaced (c :: text) (c :: spaced)
  | space {text spaced : Bytes} {c : UInt8} :
    isSpace c = true → Spaced text spaced → Spaced text (c :: spaced)

theorem Spaced.compact_eq {text spaced : Bytes} (h : Spaced text spaced) : compact spaced = compact text := by
  induction h with
  | nil => rfl
  | keep c h ih =>
    unfold compact at ih ⊢
    rw [List.filter_cons, List.filter_cons, ih]
  | space hc h ih =>
    unfold compact at ih ⊢
    rw [List.filter_cons, if_neg (by rw [hc]; decide), ih]

theorem Spaced.refl (text : Bytes) : Spaced text text := by
  induction text with
  | nil => exact .nil
  | cons c text ih => exact ih.keep c

theorem b64Value_isSome_of_mem {bs : Bytes} (hc : c ∈ b64Encode bs) : (b64Value c).isSome := by
  rw [b64Encode_eq] at hc
  obtain ⟨d, -, rfl⟩ := List.mem_map.1 hc
  rw [b64Value_b64Char]
  rfl

theorem not_isSpace_of_b64Value (h : (b64Value c).isSome) : isSpace c = false := by
  apply isSpace_of_lt
  simp only [b64Value, UInt8.le_iff_toNat_le, ← UInt8.toNat_inj, UInt8.reduceToNat] at h
  split_ifs at h
  all_goals first | omega | cases h

theorem compact_eq_self {text : Bytes} (h : ∀ c ∈ text, isSpace c = false) : compact text = text :=
  List.filter_eq_self.2 fun c hc => by rw [h c hc]; rfl

theorem findText_append (pattern rest : Bytes) : findText pattern (pattern ++ rest) = some 0 := by
  have hhead : pattern.isPrefixOf (pattern ++ rest) = true := List.isPrefixOf_iff_prefix.2 ⟨rest, rfl⟩
  unfold findText
  cases hs : pattern ++ rest with
  | nil => rw [hs] at hhead; rw [List.tails, List.findIdx?_cons, hhead]; rfl
  | cons c s => rw [hs] at hhead; rw [List.tails, List.findIdx?_cons, hhead]; rfl

/-- A pattern that ends with the only colon has to end where that colon is. -/
theorem findText_eq_none {name name' rest : Bytes} (hlen : name'.length = name.length) (hne : name' ≠ name)
    (hname : 58 ∉ name) (hrest : 58 ∉ rest) :
    findText (name' ++ [58]) (name ++ [58] ++ rest) = none := by
  refine List.findIdx?_eq_none_iff.2 fun tail htail => Bool.eq_false_iff.2 fun hstart => hne ?_
  obtain ⟨rest', rfl⟩ := List.isPrefixOf_iff_prefix.1 hstart
  obtain ⟨before, hsplit⟩ := (List.mem_tails _ _).1 htail
  have hsplit' : name ++ 58 :: rest = before ++ name' ++ 58 :: rest' := by
    simpa only [List.append_assoc, List.cons_append, List.nil_append] using hsplit.symm
  obtain ⟨hnames, -, -⟩ := (List.append_cons_inj_of_notMem hname hrest).1 hsplit'
  have hbefore : before = [] := by
    have := congrArg List.length hnames
    rw [List.length_append] at this
    exact List.eq_nil_of_length_eq_zero (by omega)
  rw [hnames, hbefore, List.nil_append]

theorem not_mem_b64Encode {bs : Bytes} (hc : b64Value c = none) : c ∉ b64Encode bs := by
  intro hmem
  have := b64Value_isSome_of_mem hmem
  rw [hc] at this
  cases this

def cardName (version : UInt8) : Bytes := ascii "pqft-contact-" ++ [version]

theorem cardPrefix_eq : cardPrefix = cardName 49 ++ [58] := by decide +kernel

theorem card2Prefix_eq : card2Prefix = cardName 50 ++ [58] := by decide +kernel

theorem card3Prefix_eq : card3Prefix = cardName 51 ++ [58] := by decide +kernel

theorem mem_cardName {version : UInt8} (hc : c ∈ cardName version) :
    isSpace c = false ∧ c ≠ 58 ∨ c = version := by
  have hname : ∀ c ∈ ascii "pqft-contact-", isSpace c = false ∧ c ≠ 58 := by decide +kernel
  rcases List.mem_append.1 hc with hc | hc
  · exact .inl (hname c hc)
  · exact .inr (List.mem_singleton.1 hc)

theorem compact_card {version : UInt8} {bs text : Bytes} (hversion : isSpace version = false)
    (h : Spaced (cardName version ++ [58] ++ b64Encode bs) text) :
    compact text = cardName version ++ [58] ++ b64Encode bs := by
  rw [h.compact_eq, compact_eq_self]
  intro c hc
  rw [List.mem_append, List.mem_append, List.mem_singleton] at hc
  rcases hc with (hc | rfl) | hc
  · rcases mem_cardName hc with ⟨hspace, -⟩ | rfl
    · exact hspace
    · exact hversion
  · rfl
  · exact not_isSpace_of_b64Value (b64Value_isSome_of_mem hc)

theorem cardBody_own (pattern bs : Bytes) :
    cardBody pattern (pattern ++ b64Encode bs) = some (b64Encode bs) := by
  rw [cardBody, findText_append, Option.map_some, Nat.zero_add, List.drop_left,
    List.takeWhile_eq_self_iff.2 fun c hc => b64Value_isSome_of_mem hc]

theorem cardBody_other {version version' : UInt8} (hne : version' ≠ version) (hcolon : version ≠ 58)
    (bs : Bytes) :
    cardBody (cardName version' ++ [58]) (cardName version ++ [58] ++ b64Encode bs) = none := by
  have hlen : (cardName version').length = (cardName version).length := by
    rw [cardName, cardName, List.length_append, List.length_append, List.length_singleton,
      List.length_singleton]
  have hnames : cardName version' ≠ cardName version := fun h =>
    hne (List.head_eq_of_cons_eq (List.append_cancel_left h))
  have hname : 58 ∉ cardName version := by
    intro hmem
    rcases mem_cardName hmem with ⟨-, hne⟩ | heq
    · exact hne rfl
    · exact hcolon heq.symm
  rw [cardBody, findText_eq_none hlen hnames hname (not_mem_b64Encode rfl), Option.map_none]

theorem checkedPayload_withChecksum (C : ChatCrypto) {payload : Bytes} (hne : payload ≠ []) :
    checkedPayload C (b64Encode (withChecksum C payload)) = some payload := by
  have hsum : ((C.sha256 payload).1.take cardChecksumBytes).length = cardChecksumBytes := by
    rw [List.length_take, (C.sha256 payload).2]
    rfl
  have hlen : (withChecksum C payload).length = payload.length + cardChecksumBytes := by
    rw [withChecksum, List.length_append, hsum]
  rw [checkedPayload, b64Decode_b64Encode, Option.bind_eq_bind, Option.bind_some]
  simp only [hlen, Nat.add_sub_cancel]
  have htake : (withChecksum C payload).take payload.length = payload := List.take_left
  have hdrop : (withChecksum C payload).drop payload.length = (C.sha256 payload).1.take cardChecksumBytes :=
    List.drop_left
  rw [htake, hdrop, if_neg, if_pos rfl]
  have := List.length_pos_of_ne_nil hne
  omega

/-! ### The first version -/

/-- The parts that a card may be made of. -/
structure ContactCard.Valid (C : ChatCrypto) (card : ContactCard) : Prop where
  name : card.name.length ≤ maxCardNameBytes
  pubKem : card.pubKem.length = C.kemPublicKeySize
  pubDsa : card.pubDsa.length = C.sigPublicKeySize
  serverSize : card.server.length ≤ maxCardServerBytes
  server : validServer card.server = true

section

open Reader

variable {C : ChatCrypto} {bundle : IdentityBundle} {card : ContactCard} {text : Bytes}

theorem reads_card (hcard : card.Valid C) (hkem : C.kemPublicKeySize ≤ FileProtocol.maxKemCiphertextSize)
    (hsig : C.sigPublicKeySize ≤ FileProtocol.maxSignatureSize) : Reads cardReader card.write card := by
  have hreads : Reads cardReader (writeBlob card.name ++ (writeBlob card.pubKem ++
      (writeBlob card.pubDsa ++ writeBlob card.server))) card :=
    (reads_blob hcard.name (by decide)).bind
      ((reads_blob (hcard.pubKem.trans_le hkem) (by decide)).bind
        ((reads_blob (hcard.pubDsa.trans_le hsig) (by decide)).bind
          ((reads_blob hcard.serverSize (by decide)).last (reads_pure card))))
  simpa only [ContactCard.write, writeString, List.append_assoc] using hreads

theorem decodeContactCard_encode (hcard : card.Valid C)
    (hkem : C.kemPublicKeySize ≤ FileProtocol.maxKemCiphertextSize)
    (hsig : C.sigPublicKeySize ≤ FileProtocol.maxSignatureSize)
    (htext : Spaced (encodeContactCard C card) text) : decodeContactCard C text = .ok card := by
  have hrest := (reads_card hcard hkem hsig).whole_eq
  have hmagic (rest : Bytes) : (readU32 (writeU32 cardMagic ++ rest)).filter (·.1 = cardMagic) =
      some (cardMagic, rest) := by rw [readU32_writeU32]; rfl
  have hversion (rest : Bytes) : (readU32 (writeU32 cardVersion ++ rest)).filter (·.1 = cardVersion) =
      some (cardVersion, rest) := by rw [readU32_writeU32]; rfl
  have hpayload : checkedPayload C (b64Encode (withChecksum C (writeU32 cardMagic ++ writeU32 cardVersion ++
      card.write))) = some (writeU32 cardMagic ++ (writeU32 cardVersion ++ card.write)) := by
    rw [List.append_assoc]
    exact checkedPayload_withChecksum C (List.cons_ne_nil _ _)
  rw [encodeContactCard, cardPrefix_eq] at htext
  rw [decodeContactCard, compact_card (by decide) htext, cardPrefix_eq, cardBody_own]
  simp only [orFail, bind, Except.bind, hpayload, hmagic, hversion, hrest]
  rw [if_neg (not_or.2 ⟨not_not.2 hcard.pubKem, not_not.2 hcard.pubDsa⟩), if_neg (not_not.2 hcard.server)]

theorem decodeAnyContactCard_encode (hcard : card.Valid C)
    (hkem : C.kemPublicKeySize ≤ FileProtocol.maxKemCiphertextSize)
    (hsig : C.sigPublicKeySize ≤ FileProtocol.maxSignatureSize)
    (htext : Spaced (encodeContactCard C card) text) :
    decodeAnyContactCard C text = .ok ⟨card.name, card.pubKem, card.pubDsa, card.server, none, []⟩ := by
  have hcard' := decodeContactCard_encode hcard hkem hsig htext
  rw [encodeContactCard, cardPrefix_eq] at htext
  have hthird : cardBody card3Prefix (compact text) = none := by
    rw [compact_card (by decide) htext, card3Prefix_eq]
    exact cardBody_other (by decide) (by decide) _
  have hsecond : cardBody card2Prefix (compact text) = none := by
    rw [compact_card (by decide) htext, card2Prefix_eq]
    exact cardBody_other (by decide) (by decide) _
  rw [decodeAnyContactCard, hthird]
  simp only [hsecond, hcard']
  rfl

/-! ### The signed versions -/

theorem importBundle_eq {raw token : Bytes} (hbundle : parseIdentityBundle C raw = some bundle)
    (hserver : validServer bundle.relayHint = true) :
    importBundle C raw token = .ok (importedCard bundle token) := by
  rw [importBundle, hbundle]
  exact if_neg (not_not.2 hserver)

theorem decodeAnyContactCard_v2 {raw : Bytes} (hbundle : parseIdentityBundle C raw = some bundle)
    (hserver : validServer bundle.relayHint = true) (htext : Spaced (encodeContactCardV2 C raw) text) :
    decodeAnyContactCard C text = .ok (importedCard bundle []) := by
  rw [encodeContactCardV2, card2Prefix_eq] at htext
  have hcompact := compact_card (by decide) htext
  have hthird : cardBody card3Prefix (compact text) = none := by
    rw [hcompact, card3Prefix_eq]
    exact cardBody_other (by decide) (by decide) _
  have hne : raw ≠ [] := by
    obtain ⟨hraw, body, signature, fields, haccepted⟩ := IdentityBundle.accepted_of_parse hbundle
    rw [← hraw, haccepted.parts]
    exact List.cons_ne_nil _ _
  rw [decodeAnyContactCard, hthird, hcompact, card2Prefix_eq]
  simp only [cardBody_own, checkedPayload_withChecksum C hne, orFail, bind, Except.bind]
  exact importBundle_eq hbundle hserver

theorem decodeAnyContactCard_v3 {raw token : Bytes} (hbundle : parseIdentityBundle C raw = some bundle)
    (hserver : validServer bundle.relayHint = true) (hsize : raw.length ≤ 16 * 1024)
    (htoken : token = [] ∨ token.length = 32) (htext : Spaced (encodeContactCardV3 C raw token) text) :
    decodeAnyContactCard C text = .ok (importedCard bundle token) := by
  rw [encodeContactCardV3, card3Prefix_eq] at htext
  have htokenSize : token.length ≤ 64 := by
    rcases htoken with rfl | htoken
    · exact Nat.zero_le _
    · omega
  have hreads : Reads bundleTokenReader (writeBlob raw ++ writeBlob token) (raw, token) :=
    (reads_blob hsize (by decide)).bind
      ((reads_blob htokenSize (by decide)).last (.check htoken (reads_pure _)))
  have hpayload : checkedPayload C (b64Encode (withChecksum C (writeBlob raw ++ writeBlob token))) =
      some (writeBlob raw ++ writeBlob token) := checkedPayload_withChecksum C (List.cons_ne_nil _ _)
  rw [decodeAnyContactCard, compact_card (by decide) htext, card3Prefix_eq, cardBody_own]
  simp only [orFail, bind, Except.bind, hpayload, hreads.whole_eq]
  exact importBundle_eq hbundle hserver

/-- What `create_identity_bundle` makes fits into a card. -/
theorem created_fits {sp ep name : Bytes} {a : IdentityBundle.Address} {issued : UInt64} {priv raw : Bytes}
    (hkeys : IdentityBundle.KeyPair C sp priv)
    (h : createIdentityBundle C sp ep name a issued priv = .ok raw) :
    raw.length ≤ 16 * 1024 ∧
      parseIdentityBundle C raw = some ⟨issued, sp, ep, name, a.relayHint, a.relayId, a.mailboxId, raw⟩ :=
  ⟨(IdentityBundle.length_created_le hkeys h).trans (by decide), IdentityBundle.parse_created hkeys h⟩

end

/-- Both directions of base64url, and each version of a card with whitespace put in anywhere. -/
theorem cards_read_back (C : ChatCrypto) (hkem : C.kemPublicKeySize = 1184)
    (hsig : C.sigPublicKeySize = 1952) :
    (∀ bs, b64Decode (b64Encode bs) = some bs) ∧
    (∀ s bs, b64Decode s = some bs → s = b64Encode bs) ∧
    (∀ (card : ContactCard) text, card.Valid C → Spaced (encodeContactCard C card) text →
      decodeContactCard C text = .ok card ∧
      decodeAnyContactCard C text = .ok ⟨card.name, card.pubKem, card.pubDsa, card.server, none, []⟩) ∧
    (∀ raw bundle text, parseIdentityBundle C raw = some bundle → validServer bundle.relayHint = true →
      Spaced (encodeContactCardV2 C raw) text →
      decodeAnyContactCard C text = .ok (importedCard bundle [])) ∧
    (∀ raw bundle token text, parseIdentityBundle C raw = some bundle →
      validServer bundle.relayHint = true → raw.length ≤ 16 * 1024 → (token = [] ∨ token.length = 32) →
      Spaced (encodeContactCardV3 C raw token) text →
      decodeAnyContactCard C text = .ok (importedCard bundle token)) ∧
    ∀ sp ep name a issued priv raw, IdentityBundle.KeyPair C sp priv →
      createIdentityBundle C sp ep name a issued priv = .ok raw → raw.length ≤ 16 * 1024 ∧
        parseIdentityBundle C raw =
          some ⟨issued, sp, ep, name, a.relayHint, a.relayId, a.mailboxId, raw⟩ := by
  have hkem' : C.kemPublicKeySize ≤ FileProtocol.maxKemCiphertextSize := hkem ▸ by decide
  have hsig' : C.sigPublicKeySize ≤ FileProtocol.maxSignatureSize := hsig ▸ by decide
  refine ⟨b64Decode_b64Encode, fun _ _ h => b64Decode_eq_some.1 h, ?_, ?_, ?_, ?_⟩
  · intro card text hcard htext
    exact ⟨decodeContactCard_encode hcard hkem' hsig' htext,
      decodeAnyContactCard_encode hcard hkem' hsig' htext⟩
  · intro raw bundle text hbundle hserver htext
    exact decodeAnyContactCard_v2 hbundle hserver htext
  · intro raw bundle token text hbundle hserver hsize htoken htext
    exact decodeAnyContactCard_v3 hbundle hserver hsize htoken htext
  · intro sp ep name a issued priv raw hkeys h
    exact created_fits hkeys h

/-- A card with a line break in front. -/
theorem cards_read_back_sample :
    decodeContactCard IdentityBundle.sampleCrypto (10 :: encodeContactCard IdentityBundle.sampleCrypto
      ⟨ascii "Ann", List.replicate 1184 2, List.replicate 1952 1, ascii "a:1"⟩) =
      .ok ⟨ascii "Ann", List.replicate 1184 2, List.replicate 1952 1, ascii "a:1"⟩ := by
  have hcard : ContactCard.Valid IdentityBundle.sampleCrypto
      ⟨ascii "Ann", List.replicate 1184 2, List.replicate 1952 1, ascii "a:1"⟩ :=
    ⟨by decide, List.length_replicate, List.length_replicate, by decide, by decide +kernel⟩
  obtain ⟨-, -, hfirst, -⟩ := cards_read_back IdentityBundle.sampleCrypto rfl rfl
  exact (hfirst _ _ hcard (.space rfl (.refl _))).1

end PqSuite
