import PqSuite.Lib.Reach
import PqSuite.Protocol.Wire

/-!
# The relay's key files (`relay_service.cpp`)

On its first start a relay makes its keys and writes them to two files, each through a temporary file and
a rename; later starts read them. The program can be killed in the middle of any of this, and a file can
lose its end when the power fails. The relay never comes up with other keys than the first time
(`relay_keeps_its_identity`), as long as the lookups of the files themselves work.
-/

namespace PqSuite.Relay

structure RelayKeys where
  publicKey : Bytes
  privateKey : Bytes

end PqSuite.Relay

namespace PqSuite.Relay.Identity

open Reach

inductive KeyFile where
  | publicKey
  | privateKey
  deriving DecidableEq

/-- One operation on a file of `write_file_private`: each is written beside it first. -/
inductive FileStep where
  | openTmp (f : KeyFile)
  | write (f : KeyFile) (data : Bytes)
  | rename (f : KeyFile)

def writeFilePrivate (f : KeyFile) (data : Bytes) : List FileStep := [.openTmp f, .write f data, .rename f]

def writeKeys (k : RelayKeys) : List FileStep :=
  writeFilePrivate .privateKey k.privateKey ++ writeFilePrivate .publicKey k.publicKey

inductive Stage where
  | down
  | creating (k : RelayKeys) (todo : List FileStep)
  | up (k : RelayKeys)

/-- The folder and the program. `used` is history: the keys the relay has come up with. -/
structure State where
  files : KeyFile → Option Bytes := fun _ => none
  temps : KeyFile → Option Bytes := fun _ => none
  stage : Stage := .down
  used : List RelayKeys := []

/-- Which lookups and reads of a start work; a lookup that fails finds no file. -/
structure Lookups where
  sees : KeyFile → Bool := fun _ => true
  reads : KeyFile → Bool := fun _ => true

inductive Event where
  /-- With the keys that would be generated. -/
  | start (k : RelayKeys) (io : Lookups)
  | next
  /-- It does not; of a write, so much got through. -/
  | cut (bytes : ℕ)
  /-- The program ends, whatever it is doing. -/
  | stop
  | tear (f : KeyFile) (bytes : ℕ)

def halfText (dataDir : String) : String :=
  "Only one of the relay's key files exists in " ++ dataDir ++
    ". Restore the missing file from a backup. Not generating a new identity."

def damagedText (dataDir : String) : String := "The relay's key files in " ++ dataDir ++ " are damaged"

/-- The sizes of keys and the folder's name. -/
structure Config where
  publicSize : ℕ
  secretSize : ℕ
  dataDir : String

variable (cfg : Config)

/-- What `load_or_create_identity` finds: keys, or none and new ones are to be made. -/
def loadIdentity (files : KeyFile → Option Bytes) (io : Lookups) : Except String (Option RelayKeys) :=
  let have_ f := io.sees f && (files f).isSome
  if have_ .publicKey ≠ have_ .privateKey then .error (halfText cfg.dataDir)
  else if have_ .publicKey then
    let read f := if io.reads f then (files f).getD [] else []
    if (read .publicKey).length ≠ cfg.publicSize ∨ (read .privateKey).length ≠ cfg.secretSize then
      .error (damagedText cfg.dataDir)
    else .ok (some ⟨read .publicKey, read .privateKey⟩)
  else .ok none

namespace State

def comeUp (s : State) (k : RelayKeys) : State := { s with stage := .up k, used := k :: s.used }

def apply (s : State) : FileStep → State
  | .openTmp f => { s with temps := Function.update s.temps f (some []) }
  | .write f data => { s with temps := Function.update s.temps f (some data) }
  | .rename f =>
    { s with files := Function.update s.files f (s.temps f), temps := Function.update s.temps f none }

def applyCut (s : State) (bytes : ℕ) : FileStep → State
  | .write f data => s.apply (.write f (data.take bytes))
  | _ => s

def next (s : State) : Event → State
  | .start k io =>
    match s.stage with
    | .down =>
      match loadIdentity cfg s.files io with
      | .error _ => s
      | .ok (some old) => s.comeUp old
      | .ok none => { s with stage := .creating k (writeKeys k) }
    | _ => s
  | .next =>
    match s.stage with
    | .creating k (op :: todo) => { s.apply op with stage := .creating k todo }
    | .creating k [] => s.comeUp k
    | _ => s
  | .cut bytes =>
    match s.stage with
    | .creating _ (op :: _) => { s.applyCut bytes op with stage := .down }
    | .creating _ [] => { s with stage := .down }
    | _ => s
  | .stop => { s with stage := .down }
  | .tear f bytes => { s with files := Function.update s.files f ((s.files f).map (·.take bytes)) }

def Init (s : State) : Prop := (∀ f, s.files f = none) ∧ s.stage = .down ∧ s.used = []

def Step (s : State) (e : Event) (s' : State) : Prop := s' = s.next cfg e

theorem step_next (s : State) (e : Event) : s.Step cfg e (s.next cfg e) := rfl

end State

/-- Keys of the right sizes. -/
def Sized (k : RelayKeys) : Prop := k.publicKey.length = cfg.publicSize ∧ k.privateKey.length = cfg.secretSize

/-- New keys have their sizes, and the files can be looked up. -/
def Allowed (_ : State) : Event → Prop
  | .start k io => Sized cfg k ∧ ∀ f, io.sees f = true
  | _ => True

/-! ## What the folder can look like -/

def Part (file : Option Bytes) (key : Bytes) : Prop := ∃ b, file = some b ∧ b <+: key

/-- Nothing is there; or the private key is; or both are, of one pair, the only one that was ever used. -/
inductive Sound (s : State) : Prop
  | empty (hfiles : ∀ f, s.files f = none) (hused : s.used = [])
      (hstage : s.stage = .down ∨ ∃ k, Sized cfg k ∧
        (s.stage = .creating k (writeKeys k) ∨ s.stage = .creating k ((writeKeys k).drop 1) ∨
          s.stage = .creating k ((writeKeys k).drop 2) ∧ s.temps .privateKey = some k.privateKey))
  | half (k : RelayKeys) (hk : Sized cfg k) (hprivate : Part (s.files .privateKey) k.privateKey)
      (hpublic : s.files .publicKey = none) (hused : s.used = [])
      (hstage : s.stage = .down ∨ s.stage = .creating k ((writeKeys k).drop 3) ∨
        s.stage = .creating k ((writeKeys k).drop 4) ∨
        s.stage = .creating k ((writeKeys k).drop 5) ∧ s.temps .publicKey = some k.publicKey)
  | whole (k : RelayKeys) (hk : Sized cfg k) (hprivate : Part (s.files .privateKey) k.privateKey)
      (hpublic : Part (s.files .publicKey) k.publicKey) (hused : ∀ u ∈ s.used, u = k)
      (hstage : s.stage = .down ∨ s.stage = .creating k [] ∨ s.stage = .up k)

variable {cfg} {s : State} {k : RelayKeys} {key : Bytes} {io : Lookups} {file : Option Bytes}

theorem Part.tear (h : Part file key) (bytes : ℕ) : Part (file.map (·.take bytes)) key := by
  obtain ⟨b, rfl, hb⟩ := h
  exact ⟨b.take bytes, rfl, .trans ( List.take_prefix _ _) hb⟩

theorem Part.eq (h : Part file key) (hlength : (file.getD []).length = key.length) :
    file.getD [] = key := by
  obtain ⟨b, rfl, hb⟩ := h
  exact hb.eq_of_length hlength

def readFile (io : Lookups) (files : KeyFile → Option Bytes) (f : KeyFile) : Bytes :=
  if io.reads f then (files f).getD [] else []

theorem Part.read_eq {f : KeyFile} (h : Part (s.files f) key)
    (hlength : (readFile io s.files f).length = key.length) : readFile io s.files f = key := by
  unfold readFile at hlength ⊢
  split_ifs at hlength ⊢
  · exact h.eq hlength
  · exact (List.eq_nil_of_length_eq_zero hlength.symm).symm

theorem Part.isSome (h : Part file key) : file.isSome = true := by
  obtain ⟨b, rfl, -⟩ := h
  rfl

/-- A start that finds both files reads the pair, or refuses what it reads. -/
theorem loadIdentity_whole (hk : Sized cfg k) (hprivate : Part (s.files .privateKey) k.privateKey)
    (hpublic : Part (s.files .publicKey) k.publicKey) (hsees : ∀ f, io.sees f = true) :
    loadIdentity cfg s.files io =
      if (readFile io s.files .publicKey).length ≠ cfg.publicSize ∨
          (readFile io s.files .privateKey).length ≠ cfg.secretSize then
        .error (damagedText cfg.dataDir)
      else .ok (some k) := by
  have hread : loadIdentity cfg s.files io =
      if (readFile io s.files .publicKey).length ≠ cfg.publicSize ∨
          (readFile io s.files .privateKey).length ≠ cfg.secretSize then
        .error (damagedText cfg.dataDir)
      else .ok (some ⟨readFile io s.files .publicKey, readFile io s.files .privateKey⟩) := by
    simp only [loadIdentity, hsees, hpublic.isSome, hprivate.isSome, Bool.and_self, ne_eq, not_true_eq_false,
      if_false, if_true]
    rfl
  rw [hread]
  split_ifs with hbad
  · rfl
  · obtain ⟨hpub, hpriv⟩ := not_or.1 hbad
    rw [hpublic.read_eq ((not_not.1 hpub).trans hk.1.symm), hprivate.read_eq ((not_not.1 hpriv).trans hk.2.symm)]

theorem loadIdentity_half (hprivate : Part (s.files .privateKey) key)
    (hpublic : s.files .publicKey = none) (hsees : ∀ f, io.sees f = true) :
    loadIdentity cfg s.files io = .error (halfText cfg.dataDir) := by
  simp only [loadIdentity, hsees, hpublic, hprivate.isSome, Option.isSome_none, Bool.and_self, Bool.and_false,
    ne_eq, Bool.false_eq_true, not_false_eq_true, if_true]

theorem loadIdentity_empty (io : Lookups) (hfiles : ∀ f, s.files f = none) :
    loadIdentity cfg s.files io = .ok none := by
  simp only [loadIdentity, hfiles, Option.isSome_none, Bool.and_false, ne_eq, not_true_eq_false, if_false,
    Bool.false_eq_true]

/-! ## Every event -/

/-- The relay may end at any moment, also while it writes beside the files. -/
theorem Sound.down_of_temps (h : Sound cfg s) (temps : KeyFile → Option Bytes) :
    Sound cfg { s with temps := temps, stage := .down } := by
  cases h with
  | empty hfiles hused => exact .empty hfiles hused (.inl rfl)
  | half k hk hprivate hpublic hused => exact .half k hk hprivate hpublic hused (.inl rfl)
  | whole k hk hprivate hpublic hused => exact .whole k hk hprivate hpublic hused (.inl rfl)

theorem Sound.stop (h : Sound cfg s) : Sound cfg { s with stage := .down } := h.down_of_temps s.temps

theorem Sound.tear (h : Sound cfg s) (f : KeyFile) (bytes : ℕ) :
    Sound cfg { s with files := Function.update s.files f ((s.files f).map (·.take bytes)) } := by
  have hpart : ∀ {g key}, Part (s.files g) key →
      Part (Function.update s.files f ((s.files f).map (·.take bytes)) g) key := by
    intro g key hg
    by_cases hgf : g = f
    · subst hgf
      rw [Function.update_self]
      exact hg.tear bytes
    · rwa [Function.update_of_ne hgf]
  have hnone : ∀ {g}, s.files g = none →
      Function.update s.files f ((s.files f).map (·.take bytes)) g = none := by
    intro g hg
    by_cases hgf : g = f
    · subst hgf
      rw [Function.update_self, hg]
      rfl
    · rwa [Function.update_of_ne hgf]
  cases h with
  | empty hfiles hused hstage => exact .empty (fun g => hnone (hfiles g)) hused hstage
  | half k hk hprivate hpublic hused hstage => exact .half k hk (hpart hprivate) (hnone hpublic) hused hstage
  | whole k hk hprivate hpublic hused hstage => exact .whole k hk (hpart hprivate) (hpart hpublic) hused hstage

theorem Sound.start (h : Sound cfg s) (hdown : s.stage = .down) (hk : Sized cfg k)
    (hsees : ∀ f, io.sees f = true) : Sound cfg (s.next cfg (.start k io)) := by
  simp only [State.next, hdown]
  cases h with
  | empty hfiles hused hstage =>
    rw [loadIdentity_empty io hfiles]
    exact .empty hfiles hused (.inr ⟨k, hk, .inl rfl⟩)
  | half old hold hprivate hpublic hused hstage =>
    rw [loadIdentity_half hprivate hpublic hsees]
    exact .half old hold hprivate hpublic hused hstage
  | whole old hold hprivate hpublic hused hstage =>
    rw [loadIdentity_whole hold hprivate hpublic hsees]
    split_ifs
    · exact .whole old hold hprivate hpublic hused hstage
    · exact .whole old hold hprivate hpublic (List.forall_mem_cons.2 ⟨rfl, hused⟩) (.inr (.inr rfl))

theorem State.next_op {op : FileStep} {todo : List FileStep} (h : s.stage = .creating k (op :: todo)) :
    s.next cfg .next = { s.apply op with stage := .creating k todo } := by
  simp only [next, h]

/-- One more operation on the way to the private key's file. -/
theorem Sound.nextPrivate (hfiles : ∀ f, s.files f = none) (hused : s.used = []) (hk : Sized cfg k)
    (hstage : s.stage = .creating k (writeKeys k) ∨ s.stage = .creating k ((writeKeys k).drop 1) ∨
      s.stage = .creating k ((writeKeys k).drop 2) ∧ s.temps .privateKey = some k.privateKey) :
    Sound cfg (s.next cfg .next) := by
  rcases hstage with hstage | hstage | ⟨hstage, htemp⟩
  · rw [State.next_op hstage]
    exact .empty hfiles hused (.inr ⟨k, hk, .inr (.inl rfl)⟩)
  · rw [State.next_op hstage]
    refine .empty hfiles hused (.inr ⟨k, hk, .inr (.inr ⟨rfl, ?_⟩)⟩)
    exact Function.update_self KeyFile.privateKey (some k.privateKey) s.temps
  · -- it gets its name
    rw [State.next_op hstage]
    refine .half k hk ⟨k.privateKey, ?_, List.prefix_rfl⟩ ?_ hused (.inr (.inl rfl))
    · exact (Function.update_self KeyFile.privateKey (s.temps .privateKey) s.files).trans htemp
    · have hne : KeyFile.publicKey ≠ .privateKey := by decide
      exact (Function.update_of_ne hne (s.temps .privateKey) s.files).trans (hfiles _)

/-- And to the public key's. -/
theorem Sound.nextPublic (hk : Sized cfg k) (hprivate : Part (s.files .privateKey) k.privateKey)
    (hpublic : s.files .publicKey = none) (hused : s.used = [])
    (hstage : s.stage = .creating k ((writeKeys k).drop 3) ∨ s.stage = .creating k ((writeKeys k).drop 4) ∨
      s.stage = .creating k ((writeKeys k).drop 5) ∧ s.temps .publicKey = some k.publicKey) :
    Sound cfg (s.next cfg .next) := by
  rcases hstage with hstage | hstage | ⟨hstage, htemp⟩
  · rw [State.next_op hstage]
    exact .half k hk hprivate hpublic hused (.inr (.inr (.inl rfl)))
  · rw [State.next_op hstage]
    refine .half k hk hprivate hpublic hused (.inr (.inr (.inr ⟨rfl, ?_⟩)))
    exact Function.update_self KeyFile.publicKey (some k.publicKey) s.temps
  · rw [State.next_op hstage]
    obtain ⟨b, hfile, hb⟩ := hprivate
    refine .whole k hk ⟨b, ?_, hb⟩ ⟨k.publicKey, ?_, List.prefix_rfl⟩ (fun u hu => ?_) (.inr (.inl rfl))
    · have hne : KeyFile.privateKey ≠ .publicKey := by decide
      exact (Function.update_of_ne hne (s.temps .publicKey) s.files).trans hfile
    · exact (Function.update_self KeyFile.publicKey (s.temps .publicKey) s.files).trans htemp
    · replace hu : u ∈ s.used := hu
      rw [hused] at hu
      cases hu

theorem Sound.nextStep (h : Sound cfg s) : Sound cfg (s.next cfg .next) := by
  have hstill : s.stage = .down → s.next cfg .next = s := fun hstage => by simp only [State.next, hstage]
  cases h with
  | empty hfiles hused hstage =>
    rcases hstage with hstage | ⟨k, hk, hstage⟩
    · exact (hstill hstage).symm ▸ .empty hfiles hused (.inl hstage)
    · exact .nextPrivate hfiles hused hk hstage
  | half k hk hprivate hpublic hused hstage =>
    rcases hstage with hstage | hstage
    · exact (hstill hstage).symm ▸ .half k hk hprivate hpublic hused (.inl hstage)
    · exact .nextPublic hk hprivate hpublic hused hstage
  | whole k hk hprivate hpublic hused hstage =>
    rcases hstage with hstage | hstage | hstage
    · exact (hstill hstage).symm ▸ .whole k hk hprivate hpublic hused (.inl hstage)
    · simp only [State.next, hstage]
      exact .whole k hk hprivate hpublic (List.forall_mem_cons.2 ⟨rfl, hused⟩) (.inr (.inr rfl))
    · simp only [State.next, hstage]
      exact .whole k hk hprivate hpublic hused (.inr (.inr hstage))

theorem Sound.next {e : Event} (h : Sound cfg s) (hallowed : Allowed cfg s e) : Sound cfg (s.next cfg e) := by
  cases e with
  | start k io =>
    cases hstage : s.stage with
    | down => exact h.start hstage hallowed.1 hallowed.2
    | creating | up =>
      simp only [State.next, hstage]
      exact h
  | next => exact h.nextStep
  | cut bytes =>
    simp only [State.next]
    split
    · rename_i k op todo hstage
      cases op with
      | write f data => exact h.down_of_temps _
      | openTmp | rename => exact h.stop
    · exact h.stop
    · exact h
  | stop => exact h.stop
  | tear f bytes => exact h.tear f bytes

theorem sound_of_reachable (hr : Reachable State.Init (Under (Allowed cfg) (State.Step cfg)) s) : Sound cfg s :=
  hr.invariant (fun _ h => .empty h.1 h.2.2 (.inl h.2.1)) fun _ _ _ hs hstep => hstep.2 ▸ hs.next hstep.1

/-- Wherever starts are interrupted and whatever files lose their ends: the relay always comes up with the
same keys, and it does so again whenever both files can be read and have the right sizes. -/
theorem relay_keeps_its_identity (hr : Reachable State.Init (Under (Allowed cfg) (State.Step cfg)) s) :
    (∀ u ∈ s.used, ∀ u' ∈ s.used, u = u') ∧
    ∀ u ∈ s.used, ∀ k io, s.stage = .down → (∀ f, io.sees f = true) →
      (readFile io s.files .publicKey).length = cfg.publicSize →
      (readFile io s.files .privateKey).length = cfg.secretSize →
      (s.next cfg (.start k io)).stage = .up u := by
  cases sound_of_reachable hr with
  | empty _ hused _ | half _ _ _ _ hused _ => simp [hused]
  | whole old hold hprivate hpublic hused hstage =>
    refine ⟨fun u hu u' hu' => (hused u hu).trans (hused u' hu').symm, ?_⟩
    intro u hu k io hdown hsees hpub hpriv
    have hgood : ¬((readFile io s.files .publicKey).length ≠ cfg.publicSize ∨
        (readFile io s.files .privateKey).length ≠ cfg.secretSize) := by
      rw [hpub, hpriv]
      simp
    simp only [State.next, hdown, loadIdentity_whole hold hprivate hpublic hsees, if_neg hgood]
    rw [hused u hu]
    rfl

/-! ### A first start that is cut off, and one that is not -/

def sampleConfig : Config := ⟨1, 2, "relay"⟩

def firstKeys : RelayKeys := ⟨[1], [2, 3]⟩
def otherKeys : RelayKeys := ⟨[4], [5, 6]⟩

/-- The write of the private key is cut off; the next start begins again with other keys and comes up. -/
def firstStarts : List Event :=
  [.start firstKeys {}, .next, .cut 1, .start otherKeys {}, .next, .next, .next, .next, .next, .next, .next, .stop]

/-- The last start reads what the second one made. -/
theorem third_start_is_the_second :
    ((firstStarts.foldl (State.next sampleConfig) {}).next sampleConfig (.start firstKeys {})).stage =
      .up otherKeys := by
  have hinit : State.Init {} := ⟨fun _ => rfl, rfl, rfl⟩
  have hstart : ∀ k, Sized sampleConfig k → Allowed sampleConfig {} (.start k {}) := fun k hk =>
    ⟨hk, fun _ => rfl⟩
  have hallowed : Along (Allowed sampleConfig) (State.next sampleConfig) {} firstStarts :=
    ⟨hstart firstKeys ⟨rfl, rfl⟩, trivial, trivial, hstart otherKeys ⟨rfl, rfl⟩, trivial, trivial, trivial,
      trivial, trivial, trivial, trivial, trivial, trivial⟩
  have hr : Reachable State.Init (Under (Allowed sampleConfig) (State.Step sampleConfig))
      (firstStarts.foldl (State.next sampleConfig) {}) :=
    reachable_foldl_under (State.step_next sampleConfig) (.start hinit) hallowed
  exact (relay_keeps_its_identity hr).2 otherKeys (List.mem_singleton.2 rfl) firstKeys {} rfl (fun _ => rfl)
    rfl rfl

end PqSuite.Relay.Identity
