import PqSuite.Client.Texts

/-!
# Names of attachments

`sanitize_filename` of `attachment.cpp` replaces the characters of a sender's file name that are not safe,
takes dots and spaces off both ends, cuts what is too long, and puts `_` before a name that Windows keeps
for a device. Nothing is taken off after the cut: a name that is cut right behind a dot or a space ends
with it, and one of 200 bytes that gets the `_` has 201.
-/

namespace PqSuite

open Utf8

namespace Attachment

variable {s : List Char} {c : Char}

/-! ## The code -/

def unsafeInName (cp : ℕ) : Bool :=
  -- control characters
  (cp < 0x20 || (cp ≥ 0x7F && cp ≤ 0x9F)) ||
  -- text-direction overrides and isolates
  ((cp ≥ 0x202A && cp ≤ 0x202E) || (cp ≥ 0x2066 && cp ≤ 0x2069)) ||
  -- direction marks, byte order mark
  (cp = 0x200E || cp = 0x200F || cp = 0x061C || cp = 0xFEFF) ||
  -- separators and what some system forbids: / \ : * ? " < > |
  (cp ∈ [0x2F, 0x5C, 0x3A, 0x2A, 0x3F, 0x22, 0x3C, 0x3E, 0x7C])

def toUpper (c : UInt8) : UInt8 := if 97 ≤ c ∧ c ≤ 122 then c - 32 else c

def deviceName (upper : Bytes) : Bool :=
  upper = ascii "CON" || upper = ascii "PRN" || upper = ascii "AUX" || upper = ascii "NUL" ||
    (upper.length = 4 && (upper.take 3 = ascii "COM" || upper.take 3 = ascii "LPT") &&
      upper.getD 3 0 ≥ 49 && upper.getD 3 0 ≤ 57)

def reservedWindowsName (name : Bytes) : Bool :=
  let base := (name.takeWhile (· ≠ 46)).rdropWhile (· = 32)
  deviceName (base.map toUpper)

/-- Where the byte is for the last time. -/
def rfind (c : UInt8) (s : Bytes) : Option ℕ :=
  if c ∈ s then some ((s.rdropWhile (· ≠ c)).length - 1) else none

def extension (out : Bytes) : Bytes :=
  match rfind 46 out with
  | some dot => if dot > 0 ∧ out.length - dot ≤ 20 then out.drop dot else []
  | none => []

/-- Back to where a character starts. -/
def backUp (out : Bytes) : ℕ → ℕ
  | 0 => 0
  | keep + 1 => if out.getD (keep + 1) 0 &&& 0xC0 = 0x80 then backUp out keep else keep + 1

def isEdge (c : UInt8) : Bool := c = 32 || c = 46

/-- No leading or trailing spaces and dots. -/
def trim (out : Bytes) : Bytes := (out.dropWhile isEdge).rdropWhile isEdge

/-- Keeps a short extension, and cuts the rest on a character boundary. -/
def shorten (out : Bytes) : Bytes :=
  if out.length > 200 then
    let ext := extension out
    out.take (backUp out (200 - ext.length)) ++ ext
  else out

def sanitizeFilename (name : Bytes) : Bytes :=
  match decodeUtf8 name with
  | none => ascii "attachment"
  | some cps =>
    let out := trim (cps.flatMap fun cp => appendUtf8 (if unsafeInName cp then 95 else cp))
    if out = [] then ascii "attachment"
    else
      let out := shorten out
      if reservedWindowsName out then 95 :: out else out

/-! ## Characters -/

/-- Not safe in a name: a separator, a character that some system forbids, a control character, or one that
changes the direction of the text or marks it. -/
def Unsafe (c : Char) : Prop :=
  c ∈ ['/', '\\'] ∨ c ∈ [':', '*', '?', '"', '<', '>', '|'] ∨ Control c ∨ Directional c ∨
    c.toNat ∈ [0x200E, 0x200F, 0x061C, 0xFEFF]

theorem unsafeInName_iff (c : Char) : unsafeInName c.toNat = true ↔ Unsafe c := by
  simp only [unsafeInName, Unsafe, Control, Directional, Bool.or_eq_true, Bool.and_eq_true, decide_eq_true_eq,
    List.mem_cons, List.not_mem_nil, or_false, ← Char.toNat_inj, ge_iff_le]
  change _ ↔ (c.toNat = 0x2F ∨ c.toNat = 0x5C) ∨ (c.toNat = 0x3A ∨ c.toNat = 0x2A ∨ c.toNat = 0x3F ∨
    c.toNat = 0x22 ∨ c.toNat = 0x3C ∨ c.toNat = 0x3E ∨ c.toNat = 0x7C) ∨ _
  omega

def clean (c : Char) : Char := if unsafeInName c.toNat then '_' else c

theorem clean_safe (c : Char) : ¬Unsafe (clean c) := by
  rw [← unsafeInName_iff, clean]
  split_ifs with h
  · decide
  · exact h

theorem clean_of_safe (h : ¬Unsafe c) : clean c = c :=
  if_neg fun hu => h ((unsafeInName_iff c).1 hu)

def edge (c : Char) : Bool := c = ' ' || c = '.'

theorem sameTest_edge : SameTest isEdge edge where
  ascii b := by
    simp only [isEdge, Bool.or_eq_true, decide_eq_true_eq]
    rintro (rfl | rfl) <;> decide
  char c := by
    have hbyte : c.toNat < 0x80 → (UInt8.ofNat c.toNat).toNat = c.toNat := fun h =>
      toNat_ofNat_of_lt (by omega)
    simp only [edge, isEdge, Bool.or_eq_true, decide_eq_true_eq, ← Char.toNat_inj, ← UInt8.toNat_inj]
    change c.toNat = 32 ∨ c.toNat = 46 ↔ _ ∧ (_ = 32 ∨ _ = 46)
    omega

/-- The name without what is unsafe, and without dots and spaces at its ends. -/
def shown (cs : List Char) : List Char := ((cs.map clean).dropWhile edge).rdropWhile edge

theorem flatMap_clean (cs : List Char) :
    ((cs.map Char.toNat).flatMap fun cp => appendUtf8 (if unsafeInName cp then 95 else cp)) =
      encode (cs.map clean) := by
  rw [← flatMap_appendUtf8, List.map_map, List.flatMap_map, List.flatMap_map]
  refine List.flatMap_congr fun c _ => ?_
  rw [Function.comp_apply, clean]
  split_ifs <;> rfl

theorem trim_encode (cs : List Char) : trim (encode cs) = encode ((cs.dropWhile edge).rdropWhile edge) := by
  rw [trim, sameTest_edge.dropWhile_encode, sameTest_edge.rdropWhile_encode]

/-! ## Cutting -/

theorem exists_last_mem {α : Type*} {a : α} {l : List α} (h : a ∈ l) : ∃ q r, l = q ++ a :: r ∧ a ∉ r := by
  obtain ⟨r, q, hl, hr⟩ := List.eq_append_cons_of_mem (List.mem_reverse.2 h)
  refine ⟨q.reverse, r.reverse, ?_, by rwa [List.mem_reverse]⟩
  rw [← List.reverse_reverse l, hl, List.reverse_append, List.reverse_cons, List.append_assoc,
    List.singleton_append]

theorem rtakeWhile_ne {α : Type*} [DecidableEq α] {a : α} {q r : List α} (h : a ∉ r) :
    (q ++ a :: r).rtakeWhile (· ≠ a) = r ∧ (q ++ a :: r).rdropWhile (· ≠ a) = q ++ [a] := by
  have hall : ∀ b ∈ r.reverse, decide (b ≠ a) = true := fun b hb => decide_eq_true fun heq =>
    h (heq ▸ List.mem_reverse.1 hb)
  constructor
  · rw [List.rtakeWhile, List.reverse_append, List.reverse_cons, List.append_assoc,
      List.takeWhile_append_of_pos hall, List.singleton_append, List.takeWhile_cons_of_neg (by simp),
      List.append_nil, List.reverse_reverse]
  · rw [List.rdropWhile, List.reverse_append, List.reverse_cons, List.append_assoc,
      List.dropWhile_append_of_pos hall, List.singleton_append, List.dropWhile_cons_of_neg (by simp),
      List.reverse_cons, List.reverse_reverse]

/-- From the last dot on, if that is short. -/
def shortExtension (s : List Char) : List Char :=
  if '.' ∈ s ∧ (encode ('.' :: s.rtakeWhile (· ≠ '.'))).length ≤ 20 then '.' :: s.rtakeWhile (· ≠ '.') else []

/-- At most 200 bytes: the first characters, and the extension if it is short. -/
def cut (s : List Char) : List Char :=
  if (encode s).length ≤ 200 then s
  else fit (200 - (encode (shortExtension s)).length) s ++ shortExtension s

theorem mem_dot_iff (cs : List Char) : 46 ∈ encode cs ↔ '.' ∈ cs := mem_encode_iff (c := '.') (by decide)

theorem extension_encode (hfirst : ∀ r, s ≠ '.' :: r) :
    extension (encode s) = encode (shortExtension s) := by
  by_cases hdot : '.' ∈ s
  · obtain ⟨q, r, rfl, hr⟩ := exists_last_mem hdot
    have hq : q ≠ [] := fun hnil => hfirst r (by rw [hnil, List.nil_append])
    have hpos : 0 < (encode q).length := List.length_pos_iff.2 fun hnil => hq (encode_eq_nil.1 hnil)
    have hsplit : encode (q ++ '.' :: r) = encode q ++ 46 :: encode r := encode_append q ('.' :: r)
    have hfind : rfind 46 (encode q ++ 46 :: encode r) = some (encode q).length := by
      rw [rfind, if_pos (List.mem_append_right _ List.mem_cons_self),
        (rtakeWhile_ne fun hmem => hr ((mem_dot_iff r).1 hmem)).2, List.length_append, List.length_singleton,
        Nat.add_sub_cancel]
    have hdrop : (encode q ++ 46 :: encode r).drop (encode q).length = encode ('.' :: r) := List.drop_left
    have hlength : (encode q ++ 46 :: encode r).length - (encode q).length = (encode ('.' :: r)).length := by
      rw [List.length_append, Nat.add_sub_cancel_left]
      rfl
    simp only [extension, shortExtension, hsplit, hfind, hlength, hdrop, (rtakeWhile_ne hr).1, hdot, true_and,
      hpos]
    split_ifs <;> rfl
  · have hnone : rfind 46 (encode s) = none := if_neg fun hmem => hdot ((mem_dot_iff s).1 hmem)
    rw [extension, hnone, shortExtension, if_neg fun h => hdot h.1]
    rfl

theorem backUp_eq {budget : ℕ} (h : budget < (encode s).length) :
    backUp (encode s) budget = (encode (fit budget s)).length := by
  obtain ⟨-, hstart, htails⟩ := fit_boundary h
  have hback : ∀ j, (encode (fit budget s)).length ≤ j → j ≤ budget →
      backUp (encode s) j = (encode (fit budget s)).length := by
    intro j
    induction j with
    | zero => exact fun hle _ => (Nat.le_zero.1 hle).symm
    | succ j ih =>
      intro hle hj
      rw [backUp]
      rcases Nat.lt_or_ge (encode (fit budget s)).length (j + 1) with hlt | hge
      · rw [if_pos ((isTail_iff _).2 (htails _ hlt hj))]
        exact ih (by omega) (by omega)
      · have heq : j + 1 = (encode (fit budget s)).length := le_antisymm hge hle
        rw [if_neg (fun htail => hstart (heq ▸ (isTail_iff _).1 htail)), heq]
  exact hback budget (length_encode_fit_le budget s) le_rfl

theorem length_shortExtension_le (s : List Char) : (encode (shortExtension s)).length ≤ 20 := by
  unfold shortExtension
  split_ifs with h
  · exact h.2
  · exact Nat.zero_le _

theorem shorten_encode (hfirst : ∀ r, s ≠ '.' :: r) : shorten (encode s) = encode (cut s) := by
  rw [shorten, cut]
  by_cases hlong : (encode s).length > 200
  · rw [if_pos hlong, if_neg (by omega)]
    have hbudget : 200 - (encode (shortExtension s)).length < (encode s).length := by omega
    simp only [extension_encode hfirst, backUp_eq hbudget]
    rw [(fit_boundary hbudget).1, encode_append]
  · rw [if_neg hlong, if_pos (by omega)]

/-! ## What is left of a name -/

/-- Neither begins nor ends with a dot or a space. -/
def Trimmed (s : List Char) : Prop := (∀ c ∈ s.head?, edge c = false) ∧ ∀ c ∈ s.getLast?, edge c = false

theorem shown_safe {cs : List Char} (hc : c ∈ shown cs) : ¬Unsafe c := by
  have hmem : c ∈ cs.map clean :=
    (List.dropWhile_suffix edge).subset ((List.rdropWhile_prefix edge _).subset hc)
  obtain ⟨d, -, rfl⟩ := List.mem_map.1 hmem
  exact clean_safe d

theorem shown_trimmed (cs : List Char) : Trimmed (shown cs) := by
  constructor
  · intro c hc
    obtain ⟨ys, hys⟩ := List.head?_eq_some_iff.1 hc
    obtain ⟨rest, hrest⟩ := List.rdropWhile_prefix edge ((cs.map clean).dropWhile edge)
    have hfirst := List.head?_dropWhile_not edge (cs.map clean)
    rw [← hrest] at hfirst
    rw [shown] at hys
    rw [hys] at hfirst
    exact hfirst
  · intro c hc
    obtain ⟨hne, rfl⟩ := List.mem_getLast?_eq_getLast hc
    exact Bool.eq_false_of_not_eq_true (List.rdropWhile_last_not edge _ hne)

theorem shown_of_safe (hsafe : ∀ c ∈ s, ¬Unsafe c) (htrim : Trimmed s) : shown s = s := by
  have hclean : s.map clean = s :=
    (List.map_congr_left fun c hc => clean_of_safe (hsafe c hc)).trans (List.map_id' s)
  have hstart : s.dropWhile edge = s := List.dropWhile_eq_self_iff.2 fun hpos => by
    have hfirst : s.head? = some s[0] := by rw [List.head?_eq_getElem?, List.getElem?_eq_getElem hpos]
    rw [htrim.1 _ hfirst]
    exact Bool.false_ne_true
  have hend : s.rdropWhile edge = s := List.rdropWhile_eq_self_iff.2 fun hne => by
    rw [htrim.2 _ (List.getLast?_eq_getLast_of_ne_nil hne)]
    exact Bool.false_ne_true
  rw [shown, hclean, hstart, hend]

theorem Trimmed.first (h : Trimmed s) (r : List Char) : s ≠ '.' :: r := by
  rintro rfl
  have hdot : edge '.' = false := h.1 '.' rfl
  exact absurd hdot (by decide)

theorem sanitizeFilename_encode (cs : List Char) : sanitizeFilename (encode cs) =
    if shown cs = [] then ascii "attachment"
    else if reservedWindowsName (encode (cut (shown cs))) then 95 :: encode (cut (shown cs))
    else encode (cut (shown cs)) := by
  have htrim : trim (encode (cs.map clean)) = encode (shown cs) := trim_encode _
  rw [sanitizeFilename, decodeUtf8_eq_some.2 ⟨cs, rfl, rfl⟩]
  simp only [flatMap_clean, htrim, encode_eq_nil, shorten_encode (shown_trimmed cs).first]

theorem shortExtension_suffix (s : List Char) : shortExtension s <:+ s := by
  unfold shortExtension
  split_ifs with h
  · obtain ⟨q, r, rfl, hr⟩ := exists_last_mem h.1
    rw [(rtakeWhile_ne hr).1]
    exact List.suffix_append q _
  · exact List.nil_suffix

theorem mem_of_mem_cut (h : c ∈ cut s) : c ∈ s := by
  unfold cut at h
  split_ifs at h
  · exact h
  · rcases List.mem_append.1 h with hfit | hext
    · exact (fit_isPrefix _ s).subset hfit
    · exact (shortExtension_suffix s).subset hext

theorem length_cut_le (s : List Char) : (encode (cut s)).length ≤ 200 := by
  unfold cut
  split_ifs with h
  · exact h
  · have hfit := length_encode_fit_le (200 - (encode (shortExtension s)).length) s
    have hext := length_shortExtension_le s
    rw [encode_append, List.length_append]
    omega

theorem cut_of_short (h : (encode s).length ≤ 200) : cut s = s := if_pos h

theorem head?_cut (s : List Char) : (cut s).head? = s.head? := by
  unfold cut
  split_ifs
  · rfl
  · cases s with
    | nil => rfl
    | cons c s =>
      have hext := length_shortExtension_le (c :: s)
      have hwidth : (String.utf8EncodeChar c).length ≤ 4 := by
        rw [String.length_utf8EncodeChar]
        exact c.utf8Size_le_four
      simp only [fit]
      rw [if_pos (by omega)]
      rfl

/-! ## Device names -/

def devices : List Bytes :=
  [ascii "CON", ascii "PRN", ascii "AUX", ascii "NUL"] ++
    (List.range 9).flatMap fun k =>
      [ascii "COM" ++ [UInt8.ofNat (49 + k)], ascii "LPT" ++ [UInt8.ofNat (49 + k)]]

/-- A device's name in any case, alone or followed by spaces, with or without an extension. -/
def IsDevice (name : Bytes) : Prop :=
  ∃ base k rest, name = base ++ List.replicate k 32 ++ rest ∧ base.map toUpper ∈ devices ∧
    (rest = [] ∨ ∃ ext, rest = 46 :: ext)

theorem deviceName_iff (upper : Bytes) : deviceName upper = true ↔ upper ∈ devices := by
  constructor
  · intro h
    simp only [deviceName, Bool.or_eq_true, Bool.and_eq_true, decide_eq_true_eq] at h
    rcases h with (((rfl | rfl) | rfl) | rfl) | ⟨⟨⟨hlength, hstart⟩, hlow⟩, hhigh⟩
    · decide
    · decide
    · decide
    · decide
    · obtain ⟨a, b, c, d, rfl⟩ := List.length_eq_four.1 hlength
      have hlow : 49 ≤ d.toNat := hlow
      have hhigh : d.toNat ≤ 57 := hhigh
      have hd : [a, b, c, d] = [a, b, c] ++ [UInt8.ofNat (49 + (d.toNat - 49))] := by
        rw [Nat.add_sub_cancel' hlow, UInt8.ofNat_toNat]
        rfl
      have hrange : d.toNat - 49 ∈ List.range 9 := List.mem_range.2 (by omega)
      rw [hd]
      refine List.mem_append_right _ (List.mem_flatMap.2 ⟨d.toNat - 49, hrange, ?_⟩)
      rcases hstart with hcom | hlpt
      · rw [show [a, b, c] = ascii "COM" from hcom]
        exact List.mem_cons_self
      · rw [show [a, b, c] = ascii "LPT" from hlpt]
        exact List.mem_cons_of_mem _ List.mem_cons_self
  · have hall : ∀ u ∈ devices, deviceName u = true := by decide
    exact hall upper

theorem toUpper_mem {base : Bytes} (h : base.map toUpper ∈ devices) : 46 ∉ base ∧ 32 ∉ base := by
  have hall : ∀ u ∈ devices, 46 ∉ u ∧ 32 ∉ u := by decide
  obtain ⟨hdot, hspace⟩ := hall _ h
  exact ⟨fun hmem => hdot (List.mem_map.2 ⟨46, hmem, rfl⟩),
    fun hmem => hspace (List.mem_map.2 ⟨32, hmem, rfl⟩)⟩

theorem rdropWhile_replicate {base : Bytes} {b : UInt8} (h : b ∉ base) (k : ℕ) :
    (base ++ List.replicate k b).rdropWhile (· = b) = base := by
  induction k with
  | zero =>
    rw [List.replicate_zero, List.append_nil, List.rdropWhile_eq_self_iff]
    exact fun hne heq => h (of_decide_eq_true heq ▸ List.getLast_mem hne)
  | succ k ih =>
    rw [List.replicate_succ', ← List.append_assoc, List.rdropWhile_concat_pos _ _ _ (by simp), ih]

theorem reservedWindowsName_iff (name : Bytes) : reservedWindowsName name = true ↔ IsDevice name := by
  rw [reservedWindowsName, deviceName_iff]
  constructor
  · intro h
    refine ⟨_, ((name.takeWhile (· ≠ 46)).rtakeWhile (· = 32)).length, name.dropWhile (· ≠ 46), ?_, h, ?_⟩
    · have hspaces : (name.takeWhile (· ≠ 46)).rtakeWhile (· = 32) = List.replicate _ 32 :=
        List.eq_replicate_of_mem fun b hb => by simpa using List.mem_rtakeWhile_imp hb
      rw [← hspaces, List.rdropWhile_append_rtakeWhile, List.takeWhile_append_dropWhile]
    · have hstop := List.head?_dropWhile_not (fun b : UInt8 => decide (b ≠ 46)) name
      cases hrest : name.dropWhile (· ≠ 46) with
      | nil => exact .inl rfl
      | cons b ext =>
        rw [hrest] at hstop
        exact .inr ⟨ext, by rw [not_not.1 (of_decide_eq_false hstop)]⟩
  · rintro ⟨base, k, rest, rfl, hdevice, hrest⟩
    obtain ⟨hdot, hspace⟩ := toUpper_mem hdevice
    have hnodot : ∀ b ∈ base ++ List.replicate k 32, decide (b ≠ 46) = true := by
      intro b hb
      rcases List.mem_append.1 hb with hbase | hspaces
      · exact decide_eq_true fun heq => hdot (heq ▸ hbase)
      · rw [List.eq_of_mem_replicate hspaces]
        decide
    have hempty : rest.takeWhile (· ≠ 46) = [] := by
      rcases hrest with rfl | ⟨ext, rfl⟩ <;> rfl
    rw [List.takeWhile_append_of_pos hnodot, hempty, List.append_nil, rdropWhile_replicate hspace]
    exact hdevice

/-! ## The name -/

/-- What a name is to be: safe characters, of at most 200 bytes, no dot or space at the ends, no device, and
a name that stays as it is. -/
structure GoodName (r : Bytes) : Prop where
  text : ∃ cs, encode cs = r ∧ cs ≠ [] ∧ (∀ c ∈ cs, ¬Unsafe c) ∧ Trimmed cs
  short : r.length ≤ 200
  device : ¬IsDevice r
  stable : sanitizeFilename r = r

/-- A name whose cut leaves it good: what is left does not end with a dot or a space, and if it is a device's
name there is room for the `_`. -/
def CutsWell (cs : List Char) : Prop :=
  shown cs ≠ [] → (∀ c ∈ (cut (shown cs)).getLast?, edge c = false) ∧
    (IsDevice (encode (cut (shown cs))) → (encode (cut (shown cs))).length < 200)

theorem GoodName.of_text {cs : List Char} (hne : cs ≠ []) (hsafe : ∀ c ∈ cs, ¬Unsafe c) (htrim : Trimmed cs)
    (hshort : (encode cs).length ≤ 200) (hdevice : ¬IsDevice (encode cs)) : GoodName (encode cs) where
  text := ⟨cs, rfl, hne, hsafe, htrim⟩
  short := hshort
  device := hdevice
  stable := by
    rw [sanitizeFilename_encode, shown_of_safe hsafe htrim, if_neg hne, cut_of_short hshort,
      if_neg (fun h => hdevice ((reservedWindowsName_iff _).1 h))]

theorem forall_edge_of_all {o : Option Char} (h : o.all (fun c => !edge c) = true) :
    ∀ c ∈ o, edge c = false := by
  intro c hc
  rw [Option.mem_def.1 hc, Option.all_some, Bool.not_eq_true'] at h
  exact h

theorem good_attachment : GoodName (ascii "attachment") := by
  have hall : "attachment".toList.all (fun c => !unsafeInName c.toNat) = true := by decide +kernel
  have hsafe : ∀ c ∈ "attachment".toList, ¬Unsafe c := fun c hc => by
    have hnot := List.all_eq_true.1 hall c hc
    rw [Bool.not_eq_true'] at hnot
    rw [← unsafeInName_iff, hnot]
    exact Bool.false_ne_true
  have hdevice : ¬IsDevice (encode "attachment".toList) := by
    rw [← reservedWindowsName_iff]
    decide +kernel
  exact GoodName.of_text (by decide) hsafe
    ⟨forall_edge_of_all (by decide +kernel), forall_edge_of_all (by decide +kernel)⟩ (by decide +kernel) hdevice

theorem not_device_underscore (u : Bytes) : ¬IsDevice (95 :: u) := by
  rintro ⟨base, k, rest, heq, hdevice, hrest⟩
  have hall : ∀ d ∈ devices, d.head? ≠ some 95 ∧ d ≠ [] := by decide
  obtain ⟨hhead, hne⟩ := hall _ hdevice
  cases base with
  | nil => exact hne rfl
  | cons b base =>
    rw [List.cons_append, List.cons_append] at heq
    rw [List.map_cons, ← (List.cons.inj heq).1] at hhead
    exact hhead rfl

theorem cut_ne_nil (h : s ≠ []) : cut s ≠ [] := by
  intro hnil
  have hhead := head?_cut s
  rw [hnil, List.head?_nil, eq_comm, List.head?_eq_none_iff] at hhead
  exact h hhead

theorem underscore_encode (u : List Char) : 95 :: encode u = encode ('_' :: u) := rfl

theorem getLast?_underscore {u : List Char} (h : u ≠ []) : ('_' :: u).getLast? = u.getLast? := by
  rw [List.getLast?_cons, List.getLast?_eq_getLast_of_ne_nil h]
  rfl

/-- The name is good exactly if it cuts well. -/
theorem sanitized_good_iff (name : Bytes) :
    GoodName (sanitizeFilename name) ↔ ∀ cs, encode cs = name → CutsWell cs := by
  by_cases htext : WellFormed name
  · obtain ⟨cs, rfl⟩ := htext
    constructor
    · intro hgood cs' hcs' hne
      obtain rfl := encode_injective hcs'
      rw [sanitizeFilename_encode, if_neg hne] at hgood
      split_ifs at hgood with hreserved
      · rw [underscore_encode] at hgood
        obtain ⟨ds, hds, -, -, htrim⟩ := hgood.text
        obtain rfl := encode_injective hds
        refine ⟨fun c hc => htrim.2 c (by rwa [getLast?_underscore (cut_ne_nil hne)]), fun _ => ?_⟩
        exact hgood.short
      · obtain ⟨ds, hds, -, -, htrim⟩ := hgood.text
        obtain rfl := encode_injective hds
        exact ⟨htrim.2, fun hdevice => absurd ((reservedWindowsName_iff _).2 hdevice) hreserved⟩
    · intro hcuts
      rw [sanitizeFilename_encode]
      split_ifs with hnil hreserved
      · exact good_attachment
      · obtain ⟨hlast, hroom⟩ := hcuts cs rfl hnil
        rw [underscore_encode]
        refine GoodName.of_text (List.cons_ne_nil _ _) ?_ ⟨?_, ?_⟩ ?_ (not_device_underscore _)
        · exact List.forall_mem_cons.2 ⟨clean_safe '/', fun c hc => shown_safe (mem_of_mem_cut hc)⟩
        · rintro c ⟨⟩
          rfl
        · rwa [getLast?_underscore (cut_ne_nil hnil)]
        · exact hroom ((reservedWindowsName_iff _).1 hreserved)
      · obtain ⟨hlast, -⟩ := hcuts cs rfl hnil
        refine GoodName.of_text (cut_ne_nil hnil) (fun c hc => shown_safe (mem_of_mem_cut hc)) ⟨?_, hlast⟩
          (length_cut_le _) fun hdevice => hreserved ((reservedWindowsName_iff _).2 hdevice)
        rw [head?_cut]
        exact (shown_trimmed cs).1
  · have hnone : decodeUtf8 name = none := by
      rw [← decodeUtf8_isSome_iff, Bool.not_eq_true, Option.isSome_eq_false_iff,
        Option.isNone_iff_eq_none] at htext
      exact htext
    have hname : sanitizeFilename name = ascii "attachment" := by rw [sanitizeFilename, hnone]
    rw [hname]
    exact iff_of_true good_attachment fun cs hcs => absurd ⟨cs, hcs⟩ htext

def plainName : List Char := "report.pdf".toList

/-- A name with nothing to change. -/
theorem sanitized_good_sample : GoodName (sanitizeFilename (encode plainName)) := by
  refine (sanitized_good_iff _).2 fun cs hcs hne => ?_
  obtain rfl := encode_injective hcs
  exact ⟨forall_edge_of_all (by decide +kernel), fun _ => by decide +kernel⟩

/-- 199 letters, a space and another letter. -/
def spacedName : Bytes := List.replicate 199 97 ++ [32, 98]

/-- A device's name with an extension, 200 bytes together. -/
def deviceFile : Bytes := ascii "CON." ++ List.replicate 196 97

/-- The first is cut behind the space, so that it would be changed again; the second has no room for the `_`
that it gets. -/
theorem cut_spoils_names :
    (sanitizeFilename spacedName).getLast? = some 32 ∧
    sanitizeFilename (sanitizeFilename spacedName) ≠ sanitizeFilename spacedName ∧
    (sanitizeFilename deviceFile).length = 201 ∧
    ¬GoodName (sanitizeFilename spacedName) ∧ ¬GoodName (sanitizeFilename deviceFile) := by
  have hchanged : sanitizeFilename (sanitizeFilename spacedName) ≠ sanitizeFilename spacedName := by
    decide +kernel
  have hlength : (sanitizeFilename deviceFile).length = 201 := by decide +kernel
  refine ⟨by decide +kernel, hchanged, hlength, fun hgood => hchanged hgood.stable, fun hgood => ?_⟩
  have hshort := hgood.short
  omega

end Attachment

end PqSuite
