import Mathlib.Data.List.Sort
import PqSuite.Lib.Rows
import PqSuite.Protocol.Mailbox

/-!
# The device's prekeys (`prekey.cpp`, `prekey_vault.cpp`)

The vault keeps the private halves of the prekeys, one row each, under the generation of the pool they
belong to. The rows are in `rowid` order. The private half stands here as it is read back; in the file
it is sealed under the vault's key.
-/

namespace PqSuite

open Relay

/-- The public half: what the relay holds and a sender takes. -/
structure Prekey where
  id : Bytes
  kemPublic : Bytes
  x25519Public : Bytes
  lastResort : Bool
  createdAt : UInt64
  signature : Bytes
  deriving DecidableEq

/-- The private half, which never leaves the device. -/
structure PrekeySecret where
  kemPrivate : Bytes
  x25519Private : Bytes
  deriving DecidableEq

structure Generated where
  prekey : Prekey
  secret : PrekeySecret

/-- The random ID and the two key pairs drawn for one prekey. -/
structure KeyMaterial where
  id : Bytes
  kemPublic : Bytes
  kemPrivate : Bytes
  x25519Public : Bytes
  x25519Private : Bytes

def prekeySignLabel : Bytes := ascii "pq-suite v3 prekey"

def Prekey.signingInput (p : Prekey) : Bytes :=
  writeString prekeySignLabel ++ writeBlob p.id ++ writeBlob p.kemPublic ++
    writeBlob p.x25519Public ++ [if p.lastResort then 1 else 0] ++ writeU64 p.createdAt

def Prekey.encode (p : Prekey) : Bytes := p.signingInput ++ writeBlob p.signature

/-- Makes a prekey and signs it with the owner's identity key. -/
def generatePrekey (sign : Bytes → Bytes) (m : KeyMaterial) (lastResort : Bool) (now : Time) :
    Generated :=
  let p : Prekey := ⟨m.id, m.kemPublic, m.x25519Public, lastResort,
    UInt64.ofNat (now % 2 ^ 64).toNat, []⟩
  ⟨{ p with signature := sign p.signingInput }, ⟨m.kemPrivate, m.x25519Private⟩⟩

structure VaultRow where
  id : Bytes
  secret : PrekeySecret
  /-- The public half, until it has been uploaded. -/
  prekey : Option Prekey
  lastResort : Bool
  createdAt : Time
  uploaded : Bool
  retiredAt : Option Time
  deriving DecidableEq

structure PrekeyVault where
  /-- Empty if there is no pool. -/
  generation : Bytes
  rows : List VaultRow

namespace PrekeyVault

def startGeneration (_ : PrekeyVault) (generation : Bytes) : PrekeyVault := ⟨generation, []⟩

def add (v : PrekeyVault) (g : Generated) (now : Time) : PrekeyVault :=
  { v with rows := v.rows.filter (·.id ≠ g.prekey.id) ++
      [⟨g.prekey.id, g.secret, some g.prekey, g.prekey.lastResort, now, false, none⟩] }

/-- `ORDER BY last_resort, created_at`, with the row order between equals. -/
def uploadOrder (a b : VaultRow) : Bool :=
  (!a.lastResort && b.lastResort) || (a.lastResort = b.lastResort ∧ a.createdAt ≤ b.createdAt)

def notUploaded (v : PrekeyVault) : List Prekey :=
  ((v.rows.filter (!·.uploaded)).insertionSort (uploadOrder · ·)).filterMap (·.prekey)

def markUploaded (v : PrekeyVault) (id : Bytes) : PrekeyVault :=
  { v with rows := v.rows.map fun r =>
      if r.id = id then { r with uploaded := true, prekey := none } else r }

def find (v : PrekeyVault) (id : Bytes) : Option PrekeySecret :=
  (Rows.lookup VaultRow.id id v.rows).map (·.secret)

def eraseOneTime (v : PrekeyVault) (id : Bytes) : PrekeyVault :=
  { v with rows := v.rows.filter fun r => ¬(r.id = id ∧ r.lastResort = false) }

/-- When the newest last-resort prekey was made that is uploaded and not retired. -/
def currentLastResortCreated (v : PrekeyVault) : Option Time :=
  let times := (v.rows.filter fun r => r.lastResort ∧ r.retiredAt = none ∧ r.uploaded).map
    (·.createdAt)
  let newest := times.foldl max (times.headD (-1))
  if newest < 0 then none else some newest

def retireLastResortExcept (v : PrekeyVault) (keepId : Bytes) (now : Time) : PrekeyVault :=
  { v with rows := v.rows.map fun r =>
      if r.lastResort ∧ r.retiredAt = none ∧ r.id ≠ keepId then { r with retiredAt := some now }
      else r }

def isOld (retiredBefore unusedBefore : Time) (r : VaultRow) : Bool :=
  (r.lastResort && r.retiredAt.any (· < retiredBefore)) ||
    (!r.lastResort && r.uploaded && r.createdAt < unusedBefore)

def forgetOld (v : PrekeyVault) (retiredBefore unusedBefore : Time) : PrekeyVault :=
  { v with rows := v.rows.filter fun r => !isOld retiredBefore unusedBefore r }

def pending (v : PrekeyVault) : Nat := (v.rows.filter (!·.uploaded)).length

variable {v : PrekeyVault}

theorem find_isSome {id : Bytes} : (v.find id).isSome ↔ ∃ r ∈ v.rows, r.id = id := by
  simp [find, Rows.lookup_isSome]

theorem isOld_iff {retiredBefore unusedBefore : Time} {r : VaultRow} :
    isOld retiredBefore unusedBefore r = true ↔
      (r.lastResort = true ∧ ∃ t, r.retiredAt = some t ∧ t < retiredBefore) ∨
        (r.lastResort = false ∧ r.uploaded = true ∧ r.createdAt < unusedBefore) := by
  simp [isOld, Option.any_eq_true, and_assoc]

theorem notUploaded_perm (v : PrekeyVault) :
    v.notUploaded.Perm ((v.rows.filter (!·.uploaded)).filterMap (·.prekey)) :=
  (List.perm_insertionSort _ _).filterMap _

theorem mem_notUploaded {p : Prekey} :
    p ∈ v.notUploaded ↔ ∃ r ∈ v.rows, r.uploaded = false ∧ r.prekey = some p := by
  rw [v.notUploaded_perm.mem_iff, List.mem_filterMap]
  constructor
  · rintro ⟨r, hr, hp⟩
    obtain ⟨hmem, hup⟩ := List.mem_filter.1 hr
    exact ⟨r, hmem, by simpa using hup, hp⟩
  · rintro ⟨r, hmem, hup, hp⟩
    exact ⟨r, List.mem_filter.2 ⟨hmem, by simp [hup]⟩, hp⟩

/-- The prekeys to upload are as distinct as the rows they stand in. -/
theorem nodup_notUploaded (hrows : (v.rows.map (·.id)).Nodup)
    (hid : ∀ r ∈ v.rows, r.uploaded = false → ∀ p, r.prekey = some p → p.id = r.id) :
    (v.notUploaded.map (·.id)).Nodup := by
  rw [(v.notUploaded_perm.map _).nodup_iff]
  have hsub : (((v.rows.filter (!·.uploaded)).filterMap (·.prekey)).map (·.id)).Sublist
      (v.rows.map (·.id)) := by
    generalize v.rows = rows at hid
    induction rows with
    | nil => simp
    | cons r rows ih =>
      have ih := ih fun r' hr' => hid r' (List.mem_cons_of_mem _ hr')
      cases hup : r.uploaded with
      | true => simpa [hup] using ih.cons r.id
      | false =>
        cases hp : r.prekey with
        | none => simpa [hup, hp] using ih.cons r.id
        | some p =>
          have := hid r List.mem_cons_self hup p hp
          simpa [hup, hp, this] using ih
  exact hrows.sublist hsub

end PrekeyVault

end PqSuite
