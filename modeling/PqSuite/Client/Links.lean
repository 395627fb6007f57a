import Mathlib.Data.FinEnum
import Mathlib.Data.List.DropRight
import Mathlib.Data.Nat.Digits.Lemmas
import PqSuite.Client.Contacts
import PqSuite.Server.FileServer

/-!
# Server addresses, share links and relay invites as text

An address is a name or an IPv6 literal, with a port if it is not the usual one. The two kinds are told apart
by their colons, and a literal stands in brackets as soon as it is written. What is written is read back,
also out of a sentence that wraps it in quotes or angle brackets, or ends after it.
-/

namespace PqSuite

open FileServer (isLowerHex transferIdHexLen)

variable {addr : ServerAddress} {c : UInt8} {text host : Bytes} {q : UInt8 → Bool}

/-! ## Writing -/

/-- `std::to_string`. -/
def decimal (n : ℕ) : Bytes :=
  if n = 0 then [48] else (Nat.digits 10 n).reverse.map fun d => UInt8.ofNat (48 + d)

def formatServerAddress (addr : ServerAddress) : Bytes :=
  (if 58 ∈ addr.host then 91 :: addr.host ++ [93] else addr.host) ++
    if addr.port ≠ defaultRelayPort then 58 :: decimal addr.port else []

def linkPrefix : Bytes := ascii "pqft://"

def invitePrefix : Bytes := ascii "pqft-relay://"

structure ShareLink where
  server : ServerAddress
  /-- In lowercase hexadecimal. -/
  transferId : Bytes
  deriving DecidableEq

def buildShareLink (server : ServerAddress) (transferId : Bytes) : Bytes :=
  linkPrefix ++ formatServerAddress server ++ 47 :: transferId

structure RelayInvite where
  server : ServerAddress
  /-- The hash of the relay's signing key. -/
  relayId : Bytes
  invite : Bytes
  deriving DecidableEq

def buildRelayInvite (invite : RelayInvite) : Bytes :=
  invitePrefix ++ formatServerAddress invite.server ++ 47 :: bytesToHex invite.relayId ++
    47 :: bytesToHex invite.invite

/-! ## Reading -/

def isOpening (c : UInt8) : Bool := c = 60 || c = 34 || c = 39

def isClosing (c : UInt8) : Bool := c = 62 || c = 34 || c = 39 || c = 46 || c = 44

/-- The text behind a prefix, in either case and not alone. -/
def afterPrefix (pattern s : Bytes) : Option Bytes :=
  if s.length ≤ pattern.length ∨ asciiLower (s.take pattern.length) ≠ pattern then none
  else some (s.drop pattern.length)

/-- What is before and after the first occurrence of a character. -/
def cutAt (c : UInt8) (s : Bytes) : Option (Bytes × Bytes) :=
  (s.findIdx? (· = c)).map fun i => (s.take i, s.drop (i + 1))

def parseShareLink (text : Bytes) : Option ShareLink := do
  let s := ((trim text).dropWhile isOpening).rdropWhile fun c => isClosing c || c = 47
  let rest ← afterPrefix linkPrefix s
  let (address, id) ← cutAt 47 rest
  let server ← parseServerAddress address
  let id := asciiLower id
  if isLowerHex id transferIdHexLen then some ⟨server, id⟩ else none

/-- Dashes and spaces inside the code are left out. -/
def parseRelayInvite (text : Bytes) : Option RelayInvite := do
  let s := ((trim text).dropWhile isOpening).rdropWhile isClosing
  let rest ← afterPrefix invitePrefix s
  let (address, rest) ← cutAt 47 rest
  let (id, code) ← cutAt 47 rest
  let server ← parseServerAddress address
  let relayId ← hexToBytes id
  let invite ← hexToBytes (code.filter fun c => c ≠ 45 && !isSpace c)
  if relayId.length ≠ 32 ∨ invite.length ≠ 16 then none else some ⟨server, relayId, invite⟩

/-! ## Numbers -/

theorem value_decimal {n : ℕ} (hn : n ≠ 0) :
    (decimal n).foldl (fun m c => m * 10 + (c.toNat - 48)) 0 = n := by
  have hdigit : ∀ d ∈ Nat.digits 10 n, ∀ m, m * 10 + ((UInt8.ofNat (48 + d)).toNat - 48) = d + 10 * m := by
    intro d hd m
    have := Nat.digits_lt_base (by decide) hd
    rw [UInt8.toNat_ofNat', Nat.mod_eq_of_lt (by omega)]
    omega
  have hvalue : (Nat.digits 10 n).foldr (fun d m => d + 10 * m) 0 = n :=
    (Nat.ofDigits_eq_foldr 10 _).symm.trans (Nat.ofDigits_digits 10 n)
  rw [decimal, if_neg hn, List.foldl_map, List.foldl_reverse, List.foldr_ext _ _ _ hdigit, hvalue]

theorem isDigit_of_mem_decimal {n : ℕ} (hc : c ∈ decimal n) : isDigit c = true := by
  have hall : ∀ d < 10, isDigit (UInt8.ofNat (48 + d)) = true := by decide
  unfold decimal at hc
  split_ifs at hc with hn
  · rw [List.mem_singleton.1 hc]
    rfl
  · obtain ⟨d, hd, rfl⟩ := List.mem_map.1 hc
    exact hall d (Nat.digits_lt_base (by decide) (List.mem_reverse.1 hd))

theorem parsePort_decimal {n : ℕ} (hpos : n ≠ 0) (hle : n ≤ 65535) : parsePort (decimal n) = some n := by
  have hne : decimal n ≠ [] := by
    rw [decimal, if_neg hpos]
    simpa only [ne_eq, List.map_eq_nil_iff, List.reverse_eq_nil_iff, Nat.digits_eq_nil_iff_eq_zero] using hpos
  have hlen : (decimal n).length ≤ 5 := by
    rw [decimal, if_neg hpos, List.length_map, List.length_reverse, Nat.digits_length_le_iff (by decide)]
    omega
  have hall : (decimal n).all isDigit = true := List.all_eq_true.2 fun c hc => isDigit_of_mem_decimal hc
  simp only [parsePort, value_decimal hpos]
  rw [if_neg]
  simp only [hne, not_lt.2 hlen, hall, hpos, not_lt.2 hle, not_true_eq_false, or_self, not_false_eq_true]

/-! ## What is stripped -/

theorem strip_eq {p : UInt8 → Bool} {before core after : Bytes} (hbefore : ∀ c ∈ before, p c = true)
    (hafter : ∀ c ∈ after, q c = true) (hne : core ≠ []) (hfirst : p (core.head hne) = false)
    (hlast : q (core.getLast hne) = false) :
    ((before ++ core ++ after).dropWhile p).rdropWhile q = core := by
  have hfront : (before ++ core ++ after).dropWhile p = core ++ after := by
    obtain ⟨c, core, rfl⟩ := List.exists_cons_of_ne_nil hne
    rw [List.append_assoc, List.dropWhile_append_of_pos hbefore, List.cons_append, List.dropWhile_cons_of_neg]
    exact Bool.not_eq_true _ ▸ hfirst
  have hback : core.rdropWhile q = core := by
    refine (List.rdropWhile_eq_self_iff).2 fun hne' => Bool.not_eq_true _ ▸ hlast
  rw [hfront, List.rdropWhile, List.reverse_append,
    List.dropWhile_append_of_pos fun c hc => hafter c (List.mem_reverse.1 hc)]
  exact hback

theorem trim_eq {before core after : Bytes} (hbefore : ∀ c ∈ before, isSpace c = true)
    (hafter : ∀ c ∈ after, isSpace c = true) (hne : core ≠ []) (hcore : ∀ c ∈ core, isSpace c = false) :
    trim (before ++ core ++ after) = core :=
  strip_eq hbefore hafter hne (hcore _ (List.head_mem hne)) (hcore _ (List.getLast_mem hne))

theorem cutAt_append {a : Bytes} (ha : c ∉ a) (b : Bytes) : cutAt c (a ++ c :: b) = some (a, b) := by
  have hidx : (a ++ c :: b).findIdx? (· = c) = some a.length := by
    have hnone : a.findIdx? (· = c) = none := List.findIdx?_eq_none_iff.2 fun d hd =>
      decide_eq_false fun heq => ha (heq ▸ hd)
    rw [List.findIdx?_append, hnone, List.findIdx?_cons, decide_eq_true rfl]
    simp only [if_true, Option.map_some, Nat.zero_add, Option.none_or]
  rw [cutAt, hidx, Option.map_some, List.take_left, ← List.drop_drop, List.drop_left]
  rfl

/-! ## Addresses -/

/-- What `parse_server_address` returns. -/
structure ServerAddress.Valid (addr : ServerAddress) : Prop where
  host : isValidHost addr.host = true
  portPos : addr.port ≠ 0
  portLe : addr.port ≤ 65535

theorem valid_of_parse (h : parseServerAddress text = some addr) : addr.Valid := by
  simp only [parseServerAddress, Option.bind_eq_bind, Option.bind_eq_some_iff,
    Option.ite_none_left_eq_some, not_not] at h
  obtain ⟨⟨host, port⟩, -, hhost, h⟩ := h
  cases port with
  | none =>
    obtain rfl := Option.some.inj h
    exact ⟨hhost, (by decide : defaultRelayPort ≠ 0), (by decide : defaultRelayPort ≤ 65535)⟩
  | some portText =>
    obtain ⟨port, hport, rfl⟩ := Option.map_eq_some_iff.1 h
    simp only [parsePort, Option.ite_none_left_eq_some, not_or, not_lt] at hport
    obtain ⟨⟨-, -, -, hpos, hle⟩, hvalue⟩ := hport
    obtain rfl := Option.some.inj hvalue
    exact ⟨hhost, hpos, hle⟩

/-- Neither a space, nor a bracket, nor a slash. -/
theorem host_byte (h : isValidHost host = true) (hc : c ∈ host) :
    isSpace c = false ∧ c ≠ 91 ∧ c ≠ 93 ∧ c ≠ 47 := by
  have hrange : 48 ≤ c.toNat ∧ c.toNat ≤ 58 ∨ 97 ≤ c.toNat ∧ c.toNat ≤ 122 ∨
      65 ≤ c.toNat ∧ c.toNat ≤ 90 ∨ c.toNat = 46 ∨ c.toNat = 45 ∨ c.toNat = 95 := by
    simp only [isValidHost, Bool.and_eq_true] at h
    obtain ⟨-, h⟩ := h
    split_ifs at h with hcolon
    · have hliteral := List.all_eq_true.1 h c hc
      simp only [Bool.or_eq_true, decide_eq_true_eq, isSome_nibble, ← UInt8.toNat_inj,
        UInt8.reduceToNat] at hliteral
      omega
    · have hname := List.all_eq_true.1 (Bool.and_eq_true_iff.1 h).2 c hc
      have hpunctuation : ascii ".-_" = [46, 45, 95] := by decide +kernel
      simp only [Bool.or_eq_true, isAlnum_iff, hpunctuation, List.mem_cons, List.not_mem_nil, or_false,
        decide_eq_true_eq, ← UInt8.toNat_inj, UInt8.reduceToNat] at hname
      omega
  refine ⟨isSpace_of_lt (by omega), ?_⟩
  simp only [ne_eq, ← UInt8.toNat_inj, UInt8.reduceToNat]
  omega

theorem digit_byte (h : isDigit c = true) : isSpace c = false ∧ c ≠ 58 ∧ c ≠ 47 := by
  rw [isDigit_iff] at h
  refine ⟨isSpace_of_lt (by omega), ?_⟩
  simp only [ne_eq, ← UInt8.toNat_inj, UInt8.reduceToNat]
  omega

theorem format_byte (h : addr.Valid) (hc : c ∈ formatServerAddress addr) :
    isSpace c = false ∧ c ≠ 47 := by
  rw [formatServerAddress, List.mem_append] at hc
  rcases hc with hc | hc
  · split_ifs at hc
    · rw [List.mem_append, List.mem_cons, List.mem_singleton] at hc
      rcases hc with (rfl | hc) | rfl
      · decide
      · exact ⟨(host_byte h.host hc).1, (host_byte h.host hc).2.2.2⟩
      · decide
    · exact ⟨(host_byte h.host hc).1, (host_byte h.host hc).2.2.2⟩
  · split_ifs at hc
    · rcases List.mem_cons.1 hc with rfl | hc
      · decide
      · have hdigit := digit_byte (isDigit_of_mem_decimal hc)
        exact ⟨hdigit.1, hdigit.2.2⟩
    · cases hc

theorem format_ne_nil (h : addr.Valid) : formatServerAddress addr ≠ [] := by
  have hhost : addr.host ≠ [] := by
    have := h.host
    simp only [isValidHost, Bool.and_eq_true, decide_eq_true_eq] at this
    exact this.1.1
  refine List.append_ne_nil_of_left_ne_nil ?_ _
  split_ifs
  · exact List.cons_ne_nil _ _
  · exact hhost

theorem takeWhile_ne {a : Bytes} (ha : c ∉ a) (b : Bytes) : (a ++ c :: b).takeWhile (· ≠ c) = a := by
  have hall : ∀ d ∈ a, decide (d ≠ c) = true := fun d hd => decide_eq_true fun heq => ha (heq ▸ hd)
  rw [List.takeWhile_append_of_pos hall, List.takeWhile_cons_of_neg (by simp), List.append_nil]

theorem splitAddress_bracket (hclose : 93 ∉ host) :
    splitAddress (91 :: (host ++ [93])) = some (host, none) ∧
      ∀ port, splitAddress (91 :: (host ++ 93 :: 58 :: port)) = some (host, some port) := by
  constructor
  · unfold splitAddress
    rw [List.head?_cons, if_pos rfl]
    simp only [List.tail_cons, takeWhile_ne hclose, List.drop_left]
  · intro port
    unfold splitAddress
    rw [List.head?_cons, if_pos rfl]
    simp only [List.tail_cons, takeWhile_ne hclose, List.drop_left]

theorem splitAddress_name (hopen : 91 ∉ host) (hcolon : 58 ∉ host) :
    splitAddress host = some (host, none) ∧
      ∀ port, 58 ∉ port → splitAddress (host ++ 58 :: port) = some (host, some port) := by
  constructor
  · unfold splitAddress
    rw [if_neg fun hhead => hopen (List.mem_of_head? hhead), if_neg]
    rw [List.count_eq_zero.2 hcolon]
    decide
  · intro port hport
    have hhead : (host ++ 58 :: port).head? ≠ some 91 := by
      cases host with
      | nil => exact fun h => absurd (Option.some.inj h) (by decide)
      | cons c host => exact fun h => hopen (List.mem_of_head? h)
    unfold splitAddress
    rw [if_neg hhead, if_pos]
    · simp only [takeWhile_ne hcolon, ← List.drop_drop, List.drop_left, List.drop_succ_cons, List.drop_zero]
    · rw [List.count_append, List.count_cons_self, List.count_eq_zero.2 hcolon, List.count_eq_zero.2 hport]

theorem splitAddress_format (h : addr.Valid) :
    splitAddress (formatServerAddress addr) =
      some (addr.host, if addr.port ≠ defaultRelayPort then some (decimal addr.port) else none) := by
  have hdigits : 58 ∉ decimal addr.port := fun hmem => (digit_byte (isDigit_of_mem_decimal hmem)).2.1 rfl
  have hopen : 91 ∉ addr.host := fun hmem => (host_byte h.host hmem).2.1 rfl
  have hclose : 93 ∉ addr.host := fun hmem => (host_byte h.host hmem).2.2.1 rfl
  unfold formatServerAddress
  by_cases hcolon : 58 ∈ addr.host
  · obtain ⟨halone, hport⟩ := splitAddress_bracket hclose
    rw [if_pos hcolon, List.cons_append, List.cons_append, List.append_assoc]
    split_ifs
    · exact hport _
    · exact halone
  · obtain ⟨halone, hport⟩ := splitAddress_name hopen hcolon
    rw [if_neg hcolon]
    split_ifs
    · exact hport _ hdigits
    · rwa [List.append_nil]

theorem parse_format (h : addr.Valid) : parseServerAddress (formatServerAddress addr) = some addr := by
  have htrim : trim (formatServerAddress addr) = formatServerAddress addr := by
    have hnone : ∀ c ∈ ([] : Bytes), isSpace c = true := fun c hc => by cases hc
    have hstrip := trim_eq hnone hnone (format_ne_nil h) fun c hc => (format_byte h hc).1
    rwa [List.nil_append, List.append_nil] at hstrip
  rw [parseServerAddress, htrim, splitAddress_format h, Option.bind_eq_bind, Option.bind_some]
  simp only [h.host, not_true_eq_false, if_false]
  by_cases hport : addr.port = defaultRelayPort
  · rw [if_neg (not_not.2 hport)]
    simp only [← hport]
  · rw [if_pos hport]
    simp only [parsePort_decimal h.portPos h.portLe, Option.map_some]

/-! ## Links and invites -/

/-- In quotes or angle brackets, at the end of a sentence, with whitespace outside of those. -/
def Wrapped (link text : Bytes) : Prop :=
  ∃ before opening closing after, text = before ++ (opening ++ link ++ closing) ++ after ∧
    (∀ c ∈ before, isSpace c = true) ∧ (∀ c ∈ opening, isOpening c = true) ∧
    (∀ c ∈ closing, isClosing c = true) ∧ ∀ c ∈ after, isSpace c = true

theorem not_isSpace_of_wrapper (c : UInt8) :
    (isOpening c = true → isSpace c = false) ∧ (isClosing c = true → isSpace c = false) := by
  simp only [isOpening, isClosing, Bool.or_eq_true, decide_eq_true_eq, ← UInt8.toNat_inj, UInt8.reduceToNat]
  exact ⟨fun h => isSpace_of_lt (by omega), fun h => isSpace_of_lt (by omega)⟩

theorem Wrapped.strip_eq {link : Bytes} (h : Wrapped link text)
    (hq : ∀ c, isClosing c = true → q c = true) (hspace : ∀ c ∈ link, isSpace c = false)
    (hne : link ≠ []) (hfirst : isOpening (link.head hne) = false) (hlast : q (link.getLast hne) = false) :
    ((trim text).dropWhile isOpening).rdropWhile q = link := by
  obtain ⟨before, opening, closing, after, rfl, hbefore, hopening, hclosing, hafter⟩ := h
  rw [trim_eq hbefore hafter (List.append_ne_nil_of_left_ne_nil (List.append_ne_nil_of_right_ne_nil _ hne) _)]
  · exact PqSuite.strip_eq hopening (fun c hc => hq c (hclosing c hc)) hne hfirst hlast
  · intro c hc
    rw [List.mem_append, List.mem_append] at hc
    rcases hc with (hc | hc) | hc
    · exact (not_isSpace_of_wrapper c).1 (hopening c hc)
    · exact hspace c hc
    · exact (not_isSpace_of_wrapper c).2 (hclosing c hc)

theorem afterPrefix_append {pattern rest : Bytes} (hlower : asciiLower pattern = pattern) (hne : rest ≠ []) :
    afterPrefix pattern (pattern ++ rest) = some rest := by
  have hpos := List.length_pos_of_ne_nil hne
  rw [afterPrefix, List.take_left, List.drop_left, if_neg]
  rw [List.length_append, not_or, not_not]
  exact ⟨by omega, hlower⟩

def isHexDigit (c : UInt8) : Bool := (48 ≤ c && c ≤ 57) || (97 ≤ c && c ≤ 102)

theorem hexDigit_byte (h : isHexDigit c = true) : isSpace c = false ∧ c ≠ 45 ∧ c ≠ 47 ∧
    isClosing c = false ∧ (if 65 ≤ c ∧ c ≤ 90 then c + 32 else c) = c := by
  simp only [isHexDigit, Bool.or_eq_true, Bool.and_eq_true, decide_eq_true_eq, UInt8.le_iff_toNat_le,
    UInt8.reduceToNat] at h
  refine ⟨isSpace_of_lt (by omega), ?_⟩
  simp only [isClosing, ne_eq, Bool.or_eq_false_iff, decide_eq_false_iff_not, UInt8.le_iff_toNat_le,
    ← UInt8.toNat_inj, UInt8.reduceToNat]
  rw [if_neg (by omega)]
  omega

theorem isHexDigit_of_mem {b : Bytes} (hc : c ∈ bytesToHex b) : isHexDigit c = true := by
  have hall : ∀ v : UInt8, isHexDigit (hexDigit (v >>> 4)) = true ∧
      isHexDigit (hexDigit (v &&& 15)) = true := by
    decide +kernel
  obtain ⟨v, -, hv⟩ := List.mem_flatMap.1 hc
  rw [List.mem_pair] at hv
  rcases hv with rfl | rfl
  · exact (hall v).1
  · exact (hall v).2

theorem length_bytesToHex (b : Bytes) : (bytesToHex b).length = 2 * b.length := by
  induction b with
  | nil => rfl
  | cons v b ih =>
    rw [bytesToHex, List.flatMap_cons, List.length_append, ← bytesToHex, ih, List.length_cons]
    simp only [List.length_cons, List.length_nil]
    omega

/-- What is left of a link or an invite behind its prefix. -/
theorem afterPrefix_wrapped {pattern tail : Bytes} (h : addr.Valid) (hhead : pattern.head? = some 112)
    (hpattern : ∀ c ∈ pattern, isSpace c = false) (hlower : asciiLower pattern = pattern)
    (hq : ∀ c, isClosing c = true → q c = true) (hne : tail ≠ []) (htail : ∀ c ∈ tail, isSpace c = false)
    (hlast : q (tail.getLast hne) = false)
    (htext : Wrapped (pattern ++ formatServerAddress addr ++ 47 :: tail) text) :
    afterPrefix pattern (((trim text).dropWhile isOpening).rdropWhile q) =
      some (formatServerAddress addr ++ 47 :: tail) := by
  obtain ⟨pattern', rfl⟩ : ∃ pattern', pattern = 112 :: pattern' := List.head?_eq_some_iff.1 hhead
  have hne' : 112 :: pattern' ++ formatServerAddress addr ++ 47 :: tail ≠ [] :=
    List.append_ne_nil_of_right_ne_nil _ (List.cons_ne_nil _ _)
  have hspace : ∀ c ∈ 112 :: pattern' ++ formatServerAddress addr ++ 47 :: tail, isSpace c = false := by
    intro c hc
    rcases List.mem_append.1 hc with hc | hc
    · rcases List.mem_append.1 hc with hc | hc
      · exact hpattern c hc
      · exact (format_byte h hc).1
    · rcases List.mem_cons.1 hc with rfl | hc
      · rfl
      · exact htail c hc
  have hlast' : q ((112 :: pattern' ++ formatServerAddress addr ++ 47 :: tail).getLast hne') = false := by
    rw [List.getLast_append_of_ne_nil _ (List.cons_ne_nil _ _), List.getLast_cons hne]
    exact hlast
  rw [htext.strip_eq hq hspace hne' rfl hlast', List.append_assoc,
    afterPrefix_append hlower (List.append_ne_nil_of_right_ne_nil _ (List.cons_ne_nil _ _))]

theorem parseShareLink_build {id : Bytes} (h : addr.Valid) (hid : isLowerHex id transferIdHexLen = true)
    (htext : Wrapped (buildShareLink addr id) text) : parseShareLink text = some ⟨addr, id⟩ := by
  obtain ⟨hlength, hall⟩ := Bool.and_eq_true_iff.1 hid
  have hdigit : ∀ c ∈ id, isHexDigit c = true := List.all_eq_true.1 hall
  have hne : id ≠ [] := by
    rintro rfl
    cases hlength
  have hq : ∀ c, isClosing c = true → (fun c => isClosing c || decide (c = 47)) c = true := fun c hc => by
    simp only [hc, Bool.true_or]
  have hlast : (fun c => isClosing c || decide (c = 47)) (id.getLast hne) = false := by
    obtain ⟨-, -, hslash, hclosing, -⟩ := hexDigit_byte (hdigit _ (List.getLast_mem hne))
    simp only [hclosing, decide_eq_false hslash, Bool.or_self]
  have hlower : asciiLower id = id := by
    rw [asciiLower, List.map_congr_left fun c hc => (hexDigit_byte (hdigit c hc)).2.2.2.2, List.map_id']
  have hrest := afterPrefix_wrapped h (by decide +kernel) (by decide +kernel) (by decide +kernel)
    hq hne (fun c hc => (hexDigit_byte (hdigit c hc)).1) hlast htext
  have hslash : 47 ∉ formatServerAddress addr := fun hmem => (format_byte h hmem).2 rfl
  simp only [parseShareLink, hrest, Option.bind_eq_bind, Option.bind_some, cutAt_append hslash,
    parse_format h, hlower, hid, if_true]

theorem parseRelayInvite_build {invite : RelayInvite} (h : invite.server.Valid)
    (hid : invite.relayId.length = 32) (hcode : invite.invite.length = 16)
    (htext : Wrapped (buildRelayInvite invite) text) : parseRelayInvite text = some invite := by
  have hne : bytesToHex invite.invite ≠ [] := by
    refine List.ne_nil_of_length_pos ?_
    rw [length_bytesToHex]
    omega
  have hne' : bytesToHex invite.relayId ++ 47 :: bytesToHex invite.invite ≠ [] :=
    List.append_ne_nil_of_right_ne_nil _ (List.cons_ne_nil _ _)
  have hspace : ∀ c ∈ bytesToHex invite.relayId ++ 47 :: bytesToHex invite.invite, isSpace c = false := by
    intro c hc
    rw [List.mem_append, List.mem_cons] at hc
    rcases hc with hc | rfl | hc
    · exact (hexDigit_byte (isHexDigit_of_mem hc)).1
    · rfl
    · exact (hexDigit_byte (isHexDigit_of_mem hc)).1
  have hlast :
      isClosing ((bytesToHex invite.relayId ++ 47 :: bytesToHex invite.invite).getLast hne') = false := by
    rw [List.getLast_append_of_ne_nil _ (List.cons_ne_nil _ _), List.getLast_cons hne]
    exact (hexDigit_byte (isHexDigit_of_mem (List.getLast_mem hne))).2.2.2.1
  rw [buildRelayInvite, List.append_assoc, List.cons_append] at htext
  have hrest := afterPrefix_wrapped h (by decide +kernel) (by decide +kernel) (by decide +kernel)
    (fun c hc => hc) hne' hspace hlast htext
  have hslash : 47 ∉ formatServerAddress invite.server := fun hmem => (format_byte h hmem).2 rfl
  have hslash' : 47 ∉ bytesToHex invite.relayId := fun hmem =>
    (hexDigit_byte (isHexDigit_of_mem hmem)).2.2.1 rfl
  have hfilter : (bytesToHex invite.invite).filter (fun c => c ≠ 45 && !isSpace c) =
      bytesToHex invite.invite := by
    refine List.filter_eq_self.2 fun c hc => ?_
    obtain ⟨hsp, hdash, -⟩ := hexDigit_byte (isHexDigit_of_mem hc)
    rw [decide_eq_true hdash, hsp]
    rfl
  simp only [parseRelayInvite, hrest, Option.bind_eq_bind, Option.bind_some, cutAt_append hslash,
    cutAt_append hslash', parse_format h, hfilter, hexToBytes_bytesToHex, hid, hcode]
  rfl

/-- Addresses, links and invites are read back as they were. -/
theorem links_read_back :
    (∀ text addr, parseServerAddress text = some addr →
      parseServerAddress (formatServerAddress addr) = some addr) ∧
    (∀ text addr id wrapped, parseServerAddress text = some addr → isLowerHex id transferIdHexLen = true →
      Wrapped (buildShareLink addr id) wrapped → parseShareLink wrapped = some ⟨addr, id⟩) ∧
    ∀ text addr relayId code wrapped, parseServerAddress text = some addr → relayId.length = 32 →
      code.length = 16 → Wrapped (buildRelayInvite ⟨addr, relayId, code⟩) wrapped →
      parseRelayInvite wrapped = some ⟨addr, relayId, code⟩ := by
  refine ⟨?_, ?_, ?_⟩
  · intro text addr haddr
    exact parse_format (valid_of_parse haddr)
  · intro text addr id wrapped haddr hid hwrapped
    exact parseShareLink_build (valid_of_parse haddr) hid hwrapped
  · intro text addr relayId code wrapped haddr hid hcode hwrapped
    exact parseRelayInvite_build (valid_of_parse haddr) hid hcode hwrapped

/-- A link to an IPv6 address with a port, in angle brackets and at the end of a sentence. -/
theorem links_read_back_sample :
    parseServerAddress (ascii " [::1]:80") = some ⟨ascii "::1", 80⟩ ∧
    parseShareLink ([32] ++ ([60] ++ buildShareLink ⟨ascii "::1", 80⟩
      (ascii "0123456789abcdef0123456789abcdef") ++ [62, 46]) ++ [10]) =
      some ⟨⟨ascii "::1", 80⟩, ascii "0123456789abcdef0123456789abcdef"⟩ := by
  have haddr : parseServerAddress (ascii " [::1]:80") = some ⟨ascii "::1", 80⟩ := by decide +kernel
  obtain ⟨-, hlinks, -⟩ := links_read_back
  exact ⟨haddr, hlinks _ _ _ _ haddr (by decide +kernel)
    ⟨[32], [60], [62, 46], [10], rfl, by decide +kernel, by decide +kernel, by decide +kernel,
      by decide +kernel⟩⟩

end PqSuite
