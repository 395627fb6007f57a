import PqSuite.Client.Contacts
import PqSuite.Lib.Reach

/-!
# Importing bundles of known identities (`key_store.cpp`)

A contact's folder is written one file at a time, the keys of a newer bundle first, and the process may
end between two of them. A contact whose import was cut short reads as unverified, and an unverified
contact takes any bundle of its identity, also an older one (`stopped_import_admits_older`). If no import
of a new key stops there, the issue time of a verified contact never falls (`issue_time_never_falls`).
-/

namespace PqSuite

/-! ## The files an import writes -/

inductive BundleImportResult where
  | unknownIdentity
  | updated
  | unchanged
  | stale
  deriving DecidableEq

structure BundleImport where
  result : BundleImportResult := .unknownIdentity
  contactName : Bytes := []
  encryptionKeyChanged : Bool := false
  wasUnverified : Bool := false
  deriving DecidableEq

/-- One file of a contact's folder is replaced. -/
inductive FileWrite where
  | pubKem (bytes : Bytes)
  | pubDsa (bytes : Bytes)
  | bundle (bytes : Bytes)
  | sendToken (bytes : Bytes)

def FileWrite.apply (f : ContactFolder) : FileWrite → ContactFolder
  | .pubKem bytes => { f with pubKem := bytes }
  | .pubDsa bytes => { f with pubDsa := bytes }
  | .bundle bytes => { f with bundle := bytes }
  | .sendToken bytes => { f with sendToken := bytes }

/-- What an import reports when it is through, and the files it writes on the way. -/
structure ImportPlan where
  report : BundleImport
  writes : List FileWrite := []

namespace Contacts

variable (C : ChatCrypto)

/-- `save_contact_bundle`: keys first, bundle last. -/
def bundleWrites (b : IdentityBundle) : List FileWrite :=
  [.pubKem b.encryptionKey, .pubDsa b.signingKey, .bundle b.raw]

/-- `import_bundle_for_known_identity`, for the contact with the bundle's signing key. -/
def planImport (cs : Contacts) (existing : Contact) (b : IdentityBundle) (sendToken : Bytes) :
    Except String ImportPlan :=
  let report : BundleImport :=
    { contactName := existing.name, wasUnverified := !existing.kemVerified }
  if existing.kemVerified ∧ b.issuedAt ≤ existing.bundleIssuedAt then
    if b.encryptionKey ≠ existing.pubKem then .ok { report := { report with result := .stale } }
    else if b.issuedAt = existing.bundleIssuedAt ∧ sendToken.length = 32 ∧
        sendToken ≠ existing.sendToken then
      -- a card made at the same moment can still bring a different token
      .ok { report := { report with result := .updated }, writes := [.sendToken sendToken] }
    else .ok { report := { report with result := .unchanged } }
  else match saveContactBundle C cs existing.name b with
    | .error e => .error e
    | .ok _ => .ok
      { report := { report with
          result := .updated, encryptionKeyChanged := b.encryptionKey ≠ existing.pubKem }
        writes := bundleWrites b ++ if sendToken.length = 32 then [.sendToken sendToken] else [] }

def carryOut (cs : Contacts) (name : Bytes) (writes : List FileWrite) : Contacts :=
  cs.write name fun f => writes.foldl FileWrite.apply f

end Contacts

/-- A signed bundle arrives, perhaps with a token. The process ends after that many file writes of its
import, if it does. -/
structure BundleArrival (C : ChatCrypto) where
  bundle : IdentityBundle
  signed : parseIdentityBundle C bundle.raw = some bundle
  sendToken : Bytes := []
  stop : Option ℕ := none

/-- The writes that are made. -/
def BundleArrival.made {C : ChatCrypto} (a : BundleArrival C) (writes : List FileWrite) :
    List FileWrite :=
  match a.stop with
  | none => writes
  | some n => writes.take n

/-- What the import reports if it comes to its end, and the folders after it or after the stop. -/
def Contacts.importFiles {C : ChatCrypto} (cs : Contacts) (a : BundleArrival C) :
    Except String BundleImport × Contacts :=
  match findContactByFingerprint C cs (a.bundle.fingerprint C) with
  | none => (.ok {}, cs)
  | some existing =>
    match planImport C cs existing a.bundle a.sendToken with
    | .error e => (.error e, cs)
    | .ok plan => (.ok plan.report, cs.carryOut existing.name (a.made plan.writes))

/-- The folder of contacts: every name stands for one contact. -/
structure ContactsDir where
  folders : Contacts
  nodup : (folders.map ContactFolder.name).Nodup

namespace Contacts

variable {C : ChatCrypto} {cs : Contacts} {f : ContactFolder} {c existing : Contact}
  {b : IdentityBundle} {name sendToken : Bytes} {plan : ImportPlan}

theorem name_apply (writes : List FileWrite) : ∀ f : ContactFolder,
    (writes.foldl FileWrite.apply f).name = f.name := by
  induction writes with
  | nil => exact fun f => rfl
  | cons w writes ih =>
    intro f
    rw [List.foldl_cons, ih]
    cases w <;> rfl

/-- Only the folder with the name is written. -/
theorem carryOut_eq (hname : (Rows.lookup ContactFolder.name name cs).isSome) (writes : List FileWrite) :
    cs.carryOut name writes =
      cs.map fun f => if f.name = name then writes.foldl FileWrite.apply f else f := if_pos hname

theorem lookup_carryOut (hname : (Rows.lookup ContactFolder.name name cs).isSome)
    (writes : List FileWrite) (name' : Bytes) :
    Rows.lookup ContactFolder.name name' (cs.carryOut name writes) =
      (Rows.lookup ContactFolder.name name' cs).map fun f =>
        if name' = name then writes.foldl FileWrite.apply f else f := by
  have hkey : ∀ f : ContactFolder,
      (if f.name = name then writes.foldl FileWrite.apply f else f).name = f.name := by
    intro f
    split
    · exact name_apply writes f
    · rfl
  rw [carryOut_eq hname, Rows.lookup_map hkey]
  cases hlookup : Rows.lookup ContactFolder.name name' cs with
  | none => rfl
  | some f => rw [Option.map_some, Option.map_some, (Rows.lookup_eq_some hlookup).2]

theorem names_carryOut (hname : (Rows.lookup ContactFolder.name name cs).isSome)
    (writes : List FileWrite) :
    (cs.carryOut name writes).map ContactFolder.name = cs.map ContactFolder.name := by
  rw [carryOut_eq hname, List.map_map]
  refine List.map_congr_left fun f _ => ?_
  rw [Function.comp_apply]
  split
  · exact name_apply writes f
  · rfl

/-! ## What a folder is read as -/

/-- The contact that a bundle in the folder makes. -/
def ofBundle (C : ChatCrypto) (f : ContactFolder) (b : IdentityBundle) : Contact where
  name := f.name
  pubKem := b.encryptionKey
  pubDsa := b.signingKey
  fingerprint := C.fingerprint b.signingKey
  kemVerified := true
  bundleIssuedAt := b.issuedAt
  relayAddress := if b.hasMailbox then b.relayHint else []
  relayId := if b.hasMailbox then b.relayId else []
  mailboxId := if b.hasMailbox then b.mailboxId else []
  sendToken := if f.sendToken.length = 32 then f.sendToken else []

/-- The folder has a bundle that is valid and names its keys. -/
structure Binds (C : ChatCrypto) (f : ContactFolder) (b : IdentityBundle) : Prop where
  name : isFolderName f.name = true
  parsed : parseIdentityBundle C f.bundle = some b
  signing : f.pubDsa = b.signingKey
  encryption : f.pubKem = b.encryptionKey

theorem sizes_of_parse {raw : Bytes} (h : parseIdentityBundle C raw = some b) :
    b.encryptionKey.length = C.kemPublicKeySize ∧ b.signingKey.length = C.sigPublicKeySize ∧
      b.raw = raw := by
  simp only [parseIdentityBundle, Option.bind_eq_bind, Option.bind_eq_some_iff] at h
  obtain ⟨⟨body, signature⟩, -, ⟨issuedAt, fields⟩, -, signingKey, -, encryptionKey, -, h⟩ := h
  rw [Option.ite_none_left_eq_some, Option.ite_none_left_eq_some, Option.ite_none_left_eq_some] at h
  obtain ⟨-, hsizes, -, hb⟩ := h
  rw [← Option.some.inj hb]
  exact ⟨not_not.1 (not_or.1 hsizes).2, not_not.1 (not_or.1 hsizes).1, rfl⟩

theorem Binds.load_eq (h : Binds C f b) : load C f = some (ofBundle C f b) := by
  obtain ⟨hkem, hsig, -⟩ := sizes_of_parse h.parsed
  unfold load
  rw [if_neg (by simp [h.name, h.signing, h.encryption, hkem, hsig]), h.parsed]
  dsimp only
  rw [if_pos ⟨h.signing.symm, h.encryption.symm⟩, ofBundle, h.signing, h.encryption]
  cases b.hasMailbox <;> rfl

theorem binds_of_load (h : load C f = some c) (hverified : c.kemVerified = true) :
    ∃ b, Binds C f b ∧ c = ofBundle C f b := by
  have hload := h
  unfold load at hload
  rw [Option.ite_none_left_eq_some] at hload
  cases hparse : parseIdentityBundle C f.bundle with
  | none =>
    rw [hparse] at hload
    obtain rfl := Option.some.inj hload.2
    cases hverified
  | some b =>
    by_cases hkeys : b.signingKey = f.pubDsa ∧ b.encryptionKey = f.pubKem
    · have hbinds : Binds C f b := ⟨not_not.1 (not_or.1 hload.1).1, hparse, hkeys.1.symm, hkeys.2.symm⟩
      exact ⟨b, hbinds, Option.some.inj (h.symm.trans hbinds.load_eq)⟩
    · rw [hparse] at hload
      simp only [if_neg hkeys] at hload
      obtain rfl := Option.some.inj hload.2
      cases hverified

theorem name_of_load (h : load C f = some c) : c.name = f.name := by
  cases hverified : c.kemVerified with
  | true =>
    obtain ⟨b, -, rfl⟩ := binds_of_load h hverified
    rfl
  | false =>
    unfold load at h
    rw [Option.ite_none_left_eq_some] at h
    dsimp only at h
    split at h
    · split at h
      · obtain rfl := Option.some.inj h.2
        split <;> rfl
      · obtain rfl := Option.some.inj h.2
        rfl
    · obtain rfl := Option.some.inj h.2
      rfl

theorem isSome_of_find {fp : Bytes} (h : findContactByFingerprint C cs fp = some existing) :
    (Rows.lookup ContactFolder.name existing.name cs).isSome := by
  obtain ⟨f, hf, hload⟩ := List.mem_filterMap.1 (List.mem_of_find?_eq_some h)
  exact Rows.lookup_isSome.2 ⟨f, hf, (name_of_load hload).symm⟩

/-- The contact of a signing key is one of the folders. -/
theorem lookup_of_find (hnodup : (cs.map ContactFolder.name).Nodup) {fp : Bytes}
    (h : findContactByFingerprint C cs fp = some existing) :
    ∃ f, Rows.lookup ContactFolder.name existing.name cs = some f ∧ load C f = some existing := by
  obtain ⟨f, hf, hload⟩ := List.mem_filterMap.1 (List.mem_of_find?_eq_some h)
  exact ⟨f, name_of_load hload ▸ Rows.lookup_of_mem hnodup hf, hload⟩

/-! ## One import -/

variable {a : BundleArrival C}

inductive Planned (existing : Contact) (b : IdentityBundle) (sendToken : Bytes) : List FileWrite → Prop
  | ignored (hold : existing.kemVerified = true ∧ b.issuedAt ≤ existing.bundleIssuedAt) :
    Planned existing b sendToken []
  | token (hold : existing.kemVerified = true ∧ b.issuedAt ≤ existing.bundleIssuedAt) :
    Planned existing b sendToken [.sendToken sendToken]
  | replaced (hnew : ¬(existing.kemVerified = true ∧ b.issuedAt ≤ existing.bundleIssuedAt))
    (tokens : List FileWrite) (htokens : tokens = [] ∨ tokens = [.sendToken sendToken]) :
    Planned existing b sendToken (bundleWrites b ++ tokens)

theorem planned (h : planImport C cs existing b sendToken = .ok plan) :
    Planned existing b sendToken plan.writes := by
  unfold planImport at h
  by_cases hold : existing.kemVerified = true ∧ b.issuedAt ≤ existing.bundleIssuedAt
  · simp only [if_pos hold] at h
    split_ifs at h <;> obtain rfl := Except.ok.inj h
    · exact .ignored hold
    · exact .token hold
    · exact .ignored hold
  · simp only [if_neg hold] at h
    split at h
    · cases h
    · obtain rfl := Except.ok.inj h
      refine .replaced hold _ ?_
      split
      · exact .inr rfl
      · exact .inl rfl

/-- Every import leaves the names, and writes at most the folder of the contact with the key. -/
theorem importFiles_cases (cs : Contacts) (a : BundleArrival C) :
    (cs.importFiles a).2 = cs ∨ ∃ existing writes,
      findContactByFingerprint C cs (a.bundle.fingerprint C) = some existing ∧
      Planned existing a.bundle a.sendToken writes ∧
      (cs.importFiles a).2 = cs.carryOut existing.name (a.made writes) := by
  unfold importFiles
  cases hfind : findContactByFingerprint C cs (a.bundle.fingerprint C) with
  | none => exact .inl rfl
  | some existing =>
    dsimp only
    cases hplan : planImport C cs existing a.bundle a.sendToken with
    | error e => exact .inl rfl
    | ok plan => exact .inr ⟨existing, plan.writes, rfl, planned hplan, rfl⟩

theorem names_importFiles (cs : Contacts) (a : BundleArrival C) :
    (cs.importFiles a).2.map ContactFolder.name = cs.map ContactFolder.name := by
  obtain h | ⟨existing, writes, hfind, -, h⟩ := importFiles_cases cs a <;> rw [h]
  exact names_carryOut (isSome_of_find hfind) _

/-! ## What an import does to a verified contact -/

/-- The folder has another token at most. -/
def SameButToken (f f' : ContactFolder) : Prop := f' = { f with sendToken := f'.sendToken }

theorem SameButToken.binds {f' : ContactFolder} (h : SameButToken f f') (hbinds : Binds C f b) :
    Binds C f' b := by
  rw [h]
  exact ⟨hbinds.name, hbinds.parsed, hbinds.signing, hbinds.encryption⟩

/-- A stop after so many writes leaves the contact's keys with the old bundle. -/
def StopsBetween (a : BundleArrival C) : Prop := a.stop = some 1 ∨ a.stop = some 2

/-- A folder whose new bundle was written, and one whose import was stopped before that. -/
theorem replaced_cases (a : BundleArrival C) {tokens : List FileWrite}
    (htokens : tokens = [] ∨ tokens = [.sendToken a.sendToken]) (hname : isFolderName f.name = true) :
    let f' := (a.made (bundleWrites a.bundle ++ tokens)).foldl FileWrite.apply f
    f' = f ∨ Binds C f' a.bundle ∨
      StopsBetween a ∧
        (a.bundle.encryptionKey = f.pubKem → a.bundle.signingKey = f.pubDsa → f' = f) := by
  have hbinds : ∀ ws, (ws = [] ∨ ws = [FileWrite.sendToken a.sendToken]) →
      Binds C ((bundleWrites a.bundle ++ ws).foldl FileWrite.apply f) a.bundle := by
    rintro ws (rfl | rfl) <;> exact ⟨hname, a.signed, rfl, rfl⟩
  have hrest : ∀ n, tokens.take n = [] ∨ tokens.take n = [FileWrite.sendToken a.sendToken] := by
    intro n
    rcases htokens with rfl | rfl
    · exact .inl List.take_nil
    · cases n with
      | zero => exact .inl rfl
      | succ n => exact .inr (by simp)
  unfold BundleArrival.made
  cases hstop : a.stop with
  | none => exact .inr (.inl (hbinds tokens htokens))
  | some n =>
    match n with
    | 0 => exact .inl rfl
    | 1 =>
      refine .inr (.inr ⟨.inl hstop, fun hkem _ => ?_⟩)
      show { f with pubKem := a.bundle.encryptionKey } = f
      rw [hkem]
    | 2 =>
      refine .inr (.inr ⟨.inr hstop, fun hkem hdsa => ?_⟩)
      show { f with pubKem := a.bundle.encryptionKey, pubDsa := a.bundle.signingKey } = f
      rw [hkem, hdsa]
    | n + 3 => exact .inr (.inl (hbinds _ (hrest n)))

/-- What becomes of a verified contact when a bundle is imported: nothing but its token changes, or the
bundle is newer and was written, or its import was stopped. -/
theorem importFiles_verified (hnodup : (cs.map ContactFolder.name).Nodup)
    (hlookup : Rows.lookup ContactFolder.name name cs = some f) (hbinds : Binds C f b)
    (a : BundleArrival C) :
    ∃ f', Rows.lookup ContactFolder.name name (cs.importFiles a).2 = some f' ∧
      (SameButToken f f' ∨ b.issuedAt < a.bundle.issuedAt ∧
        (Binds C f' a.bundle ∨ StopsBetween a ∧
          findContactByFingerprint C cs (a.bundle.fingerprint C) = some (ofBundle C f b) ∧
          (a.bundle.encryptionKey = f.pubKem → a.bundle.signingKey = f.pubDsa → f' = f))) := by
  obtain h | ⟨existing, writes, hfind, hplanned, h⟩ := importFiles_cases cs a <;> rw [h]
  · exact ⟨f, hlookup, .inl rfl⟩
  rw [lookup_carryOut (isSome_of_find hfind), hlookup]
  by_cases hname : name = existing.name
  case neg => exact ⟨f, congrArg some (if_neg hname), .inl rfl⟩
  -- The contact with the key is this one.
  obtain ⟨f₁, hlookup₁, hload⟩ := lookup_of_find hnodup hfind
  obtain rfl := Option.some.inj (hlookup₁.symm.trans (hname ▸ hlookup))
  obtain rfl := Option.some.inj (hload.symm.trans hbinds.load_eq)
  refine ⟨_, congrArg some (if_pos hname), ?_⟩
  cases hplanned with
  | ignored hold =>
    have hnone : a.made [] = [] := by
      unfold BundleArrival.made
      split
      · rfl
      · exact List.take_nil
    rw [hnone]
    exact .inl rfl
  | token hold =>
    unfold BundleArrival.made
    cases a.stop with
    | none => exact .inl rfl
    | some n =>
      cases n with
      | zero => exact .inl rfl
      | succ n =>
        dsimp only
        rw [List.take_succ_cons, List.take_nil]
        exact .inl rfl
  | replaced hnew tokens htokens =>
    have hlt : b.issuedAt < a.bundle.issuedAt := UInt64.not_le.1 fun hle => hnew ⟨rfl, hle⟩
    obtain hsame | hwritten | ⟨hbetween, hkeys⟩ := replaced_cases a htokens hbinds.name
    · rw [hsame]
      exact .inl rfl
    · exact .inr ⟨hlt, .inl hwritten⟩
    · exact .inr ⟨hlt, .inr ⟨hbetween, hfind, hkeys⟩⟩

end Contacts

namespace ContactsDir

open Contacts

variable {C : ChatCrypto}

def importFiles (d : ContactsDir) (a : BundleArrival C) : ContactsDir where
  folders := (d.folders.importFiles a).2
  nodup := by
    rw [names_importFiles]
    exact d.nodup

def importAll (d : ContactsDir) (as : List (BundleArrival C)) : ContactsDir := as.foldl importFiles d

/-- No newer bundle with another key stops for a verified contact between the first and the last of its
files. -/
def Uncut (d : ContactsDir) (a : BundleArrival C) : Prop :=
  ∀ existing, findContactByFingerprint C d.folders (a.bundle.fingerprint C) = some existing →
    existing.kemVerified = true → existing.bundleIssuedAt < a.bundle.issuedAt → StopsBetween a →
    a.bundle.encryptionKey = existing.pubKem ∧ a.bundle.signingKey = existing.pubDsa

/-- The contact is verified by this bundle. -/
def VerifiedBy (C : ChatCrypto) (d : ContactsDir) (name : Bytes) (b : IdentityBundle) : Prop :=
  ∃ f, Rows.lookup ContactFolder.name name d.folders = some f ∧ Binds C f b

variable {d : ContactsDir} {name : Bytes} {b : IdentityBundle} {a : BundleArrival C}

/-- A verified contact stays verified, by a bundle that is not older. -/
theorem VerifiedBy.importFiles (h : VerifiedBy C d name b) (hok : d.Uncut a) :
    ∃ b', VerifiedBy C (d.importFiles a) name b' ∧ b.issuedAt ≤ b'.issuedAt := by
  obtain ⟨f, hlookup, hbinds⟩ := h
  obtain ⟨f', hlookup', hcases⟩ := importFiles_verified d.nodup hlookup hbinds a
  obtain hsame | ⟨hlt, hwritten | ⟨hbetween, hfind, hkeys⟩⟩ := hcases
  · exact ⟨b, ⟨f', hlookup', hsame.binds hbinds⟩, UInt64.le_refl _⟩
  · exact ⟨a.bundle, ⟨f', hlookup', hwritten⟩, UInt64.le_of_lt hlt⟩
  · obtain ⟨hkem, hdsa⟩ := hok _ hfind rfl hlt hbetween
    obtain rfl := hkeys (hkem.trans hbinds.encryption.symm) (hdsa.trans hbinds.signing.symm)
    exact ⟨b, ⟨f', hlookup', hbinds⟩, UInt64.le_refl _⟩

theorem VerifiedBy.importAll {as : List (BundleArrival C)} (h : VerifiedBy C d name b)
    (hok : Reach.Along Uncut ContactsDir.importFiles d as) :
    ∃ b', VerifiedBy C (d.importAll as) name b' ∧ b.issuedAt ≤ b'.issuedAt := by
  induction as generalizing d b with
  | nil => exact ⟨b, h, UInt64.le_refl _⟩
  | cons a as ih =>
    obtain ⟨b₁, h₁, hle₁⟩ := h.importFiles hok.1
    obtain ⟨b₂, h₂, hle₂⟩ := ih h₁ hok.2
    exact ⟨b₂, h₂, UInt64.le_trans hle₁ hle₂⟩

/-- A bundle that is not newer leaves a verified contact as it is, but for its token. -/
theorem VerifiedBy.replay (h : VerifiedBy C d name b) (hold : a.bundle.issuedAt ≤ b.issuedAt) :
    ∃ token, loadContact C (d.importFiles a).folders name =
      (loadContact C d.folders name).map fun c => { c with sendToken := token } := by
  obtain ⟨f, hlookup, hbinds⟩ := h
  obtain ⟨f', hlookup', hsame | ⟨hlt, -⟩⟩ := importFiles_verified d.nodup hlookup hbinds a
  · refine ⟨if f'.sendToken.length = 32 then f'.sendToken else [], ?_⟩
    show (Rows.lookup ContactFolder.name name (d.folders.importFiles a).2).bind (load C) = _
    rw [hlookup', loadContact, hlookup, Option.bind_some, Option.bind_some, hbinds.load_eq,
      (hsame.binds hbinds).load_eq, hsame]
    rfl
  · exact absurd hold (UInt64.not_le.2 hlt)

theorem verifiedBy_of_load {c : Contact} (h : loadContact C d.folders name = some c)
    (hverified : c.kemVerified = true) : ∃ b, VerifiedBy C d name b ∧ c.bundleIssuedAt = b.issuedAt := by
  obtain ⟨f, hlookup, hload⟩ := Option.bind_eq_some_iff.1 h
  obtain ⟨b, hbinds, rfl⟩ := binds_of_load hload hverified
  exact ⟨b, ⟨f, hlookup, hbinds⟩, rfl⟩

/-- For every folder of contacts and all imports of signed bundles: if no newer bundle with another key is
stopped between its files, a contact that was once verified with a bundle is never again verified with one
issued earlier, and importing a bundle not issued later changes neither its key nor its address. -/
theorem issue_time_never_falls (d : ContactsDir) (before after : List (BundleArrival C))
    (hok : Reach.Along Uncut ContactsDir.importFiles d (before ++ after)) (name : Bytes) (c : Contact)
    (hload : loadContact C (d.importAll before).folders name = some c) (hverified : c.kemVerified = true) :
    (∀ c', loadContact C (d.importAll (before ++ after)).folders name = some c' → c'.kemVerified = true →
        c.bundleIssuedAt ≤ c'.bundleIssuedAt) ∧
      ∀ a : BundleArrival C, a.bundle.issuedAt ≤ c.bundleIssuedAt →
        ∃ token, loadContact C ((d.importAll (before ++ after)).importFiles a).folders name =
          (loadContact C (d.importAll (before ++ after)).folders name).map fun c' =>
            { c' with sendToken := token } := by
  obtain ⟨b, hb, hissued⟩ := verifiedBy_of_load hload hverified
  obtain ⟨b', hb', hle⟩ := hb.importAll (Reach.along_append.1 hok).2
  have happend : (d.importAll before).importAll after = d.importAll (before ++ after) :=
    List.foldl_append.symm
  rw [happend] at hb'
  rw [hissued]
  refine ⟨fun c' hload' _ => ?_, fun a hold => hb'.replay (UInt64.le_trans hold hle)⟩
  obtain ⟨f, hlookup, hbinds⟩ := hb'
  rw [loadContact, hlookup, Option.bind_some, hbinds.load_eq] at hload'
  obtain rfl := Option.some.inj hload'
  exact hle

/-! ### Three bundles of one identity -/

namespace Replayed

/-- Every signature is good. -/
def crypto : ChatCrypto where
  sha256 := Relay.byteSum
  sign _ _ := .ok [1]
  verify _ _ _ := true
  sigPublicKeySize := 1
  kemPublicKeySize := 1

/-- The identity `9` with an encryption key, at some time. -/
def raw (issuedAt : UInt64) (key : UInt8) : Bytes :=
  writeBlob (IdentityBundle.writeBody issuedAt (IdentityBundle.fieldsOf [9] [key] [] {})) ++ writeBlob [1]

def bundle (issuedAt : UInt64) (key : UInt8) : IdentityBundle where
  issuedAt
  signingKey := [9]
  encryptionKey := [key]
  displayName := []
  relayHint := []
  relayId := []
  mailboxId := []
  raw := raw issuedAt key

def oldest : BundleArrival crypto where
  bundle := bundle 5 1
  signed := by decide +kernel

def newest (stop : Option ℕ) : BundleArrival crypto where
  bundle := bundle 20 3
  signed := by decide +kernel
  stop

def dir : ContactsDir where
  folders := [{ name := ascii "Ann", pubKem := [2], pubDsa := [9], bundle := raw 10 2 }]
  nodup := List.nodup_singleton _

/-- What the contact is read as. -/
def verifiedAt (d : ContactsDir) : Option (Bool × UInt64 × Bytes) :=
  (loadContact crypto d.folders (ascii "Ann")).map fun c => (c.kemVerified, c.bundleIssuedAt, c.pubKem)

end Replayed

theorem issue_time_never_falls_sample :
    ∃ token, loadContact Replayed.crypto
        ((Replayed.dir.importAll [Replayed.newest none]).importFiles Replayed.oldest).folders (ascii "Ann") =
      (loadContact Replayed.crypto (Replayed.dir.importAll [Replayed.newest none]).folders
        (ascii "Ann")).map fun c' => { c' with sendToken := token } := by
  have hok : Reach.Along Uncut ContactsDir.importFiles Replayed.dir ([] ++ [Replayed.newest none]) := by
    refine ⟨fun existing _ _ _ hbetween => ?_, trivial⟩
    rcases hbetween with h | h <;> cases h
  obtain ⟨c, hload⟩ := Option.isSome_iff_exists.1
    (show (loadContact Replayed.crypto Replayed.dir.folders (ascii "Ann")).isSome = true by decide +kernel)
  have hread : Replayed.verifiedAt Replayed.dir = some (true, 10, [2]) := by decide +kernel
  rw [Replayed.verifiedAt, hload] at hread
  obtain ⟨hverified, hissued, -⟩ : c.kemVerified = true ∧ c.bundleIssuedAt = 10 ∧ c.pubKem = [2] := by
    simpa using hread
  refine (issue_time_never_falls Replayed.dir [] [Replayed.newest none] hok (ascii "Ann") c hload
    hverified).2 Replayed.oldest ?_
  rw [hissued]
  decide

/-- The import of a newer bundle stops after its first file. The contact is unverified then, and a bundle
older than the one it had is accepted, with its key. -/
theorem stopped_import_admits_older :
    Replayed.verifiedAt Replayed.dir = some (true, 10, [2]) ∧
      Replayed.verifiedAt (Replayed.dir.importAll [Replayed.newest (some 1), Replayed.oldest]) =
        some (true, 5, [1]) := by
  decide +kernel

end ContactsDir

end PqSuite
