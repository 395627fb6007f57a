import PqSuite.Client.PrekeyVault
import PqSuite.Server.Prekeys

/-!
# A device, its prekeys and its relay (`MessagingEngine::maintain_prekeys`)

A round of upkeep asks the relay what it holds, makes the prekeys that are missing, uploads those the
relay does not have, a message's worth at a time, and forgets old ones. Senders take prekeys between
any two requests; the device handles envelopes only between rounds. A request or its answer may be
lost.
-/

namespace PqSuite

open Relay

structure PrekeyOptions where
  poolTarget : ℕ := 100
  lowWater : ℕ := 30
  lastResortRotateSeconds : Time := 7 * 86400
  retiredLastResortKeepSeconds : Time := 14 * 86400
  unusedPrekeyKeepSeconds : Time := 45 * 86400

/-- One mailbox: its owner's settings and signing key, and the limits of its relay. -/
structure PrekeySetup where
  mailboxId : Bytes
  sign : Bytes → Bytes
  options : PrekeyOptions := {}
  maxPrekeys : ℕ := 200
  takesPerHour : ℕ := 60

/-- A round whose prekeys are made and partly uploaded: `pending` is what is still to go. -/
structure UploadRound where
  wall : Time
  replace : Bool
  generation : Bytes
  pending : List Prekey
  first : Bool

inductive PrekeyPhase where
  | idle
  | asked (status : PrekeyStatus)
  | uploading (r : UploadRound)

def PrekeyPhase.round : PrekeyPhase → Option UploadRound
  | .uploading r => some r
  | _ => none

/-- A prekey that was handed out, with the generation of the pool it came from. -/
structure HandedOut where
  row : PrekeyRow
  generation : Option Bytes
  deriving DecidableEq

inductive UploadFate where
  | delivered
  | replyLost
  | requestLost
  deriving DecidableEq

structure PrekeyWorld where
  vault : PrekeyVault
  store : RelayStore
  phase : PrekeyPhase
  /-- Handed out, and an envelope sealed to it may still arrive. -/
  flight : List HandedOut
  handed : List HandedOut
  drawn : List Bytes
  generations : List Bytes

inductive PrekeyEvent where
  | status
  | prepare (wall : Time) (generation : Bytes) (draw : ℕ → KeyMaterial)
  | upload (now : Time) (fate : UploadFate)
  | finish
  | take (tokenHash : Digest) (now : Time)
  /-- An envelope arrives that is sealed to a prekey; `stored` if it is processed successfully. -/
  | receive (id : Bytes) (stored : Bool)
  /-- The envelope is never sent, or expires on the relay. -/
  | lose (id : Bytes)

def Prekey.entry (p : Prekey) : PrekeyEntry := ⟨p.id, p.lastResort, p.encode⟩

namespace PrekeySetup

variable (cfg : PrekeySetup)

def addPrekeys (v : PrekeyVault) (lastResort : Bool) (wall : Time) (ms : List KeyMaterial) :
    PrekeyVault :=
  ms.foldl (fun v m => v.add (generatePrekey cfg.sign m lastResort wall) wall) v

/-- The one-time prekeys that top the pool up, if it is low and none are still to be uploaded. -/
def topUp (v : PrekeyVault) (status : PrekeyStatus) (wall : Time) (draw : ℕ → KeyMaterial) :
    PrekeyVault :=
  if status.oneTime.toNat < cfg.options.lowWater ∧ v.pending = 0 then
    cfg.addPrekeys v false wall
      ((List.range (cfg.options.poolTarget - status.oneTime.toNat)).map draw)
  else v

/-- A new last-resort prekey, if one is due and none is still to be uploaded. -/
def rotateLastResort (v : PrekeyVault) (status : PrekeyStatus) (wall : Time) (m : KeyMaterial) :
    PrekeyVault :=
  let due := !status.lastResort ||
    v.currentLastResortCreated.all fun last => wall - last ≥ cfg.options.lastResortRotateSeconds
  if due && !v.notUploaded.any (·.lastResort) then cfg.addPrekeys v true wall [m] else v

def drawnIds (draw : ℕ → KeyMaterial) : List Bytes :=
  (List.range (cfg.options.poolTarget + 1)).map fun i => (draw i).id

/-- The middle of `maintain_prekeys`: the prekeys of this round are made. -/
def prepareRound (v : PrekeyVault) (status : PrekeyStatus) (wall : Time) (generation : Bytes)
    (draw : ℕ → KeyMaterial) : PrekeyVault × UploadRound :=
  if v.generation = [] ∨ status.generation ≠ v.generation then
    let v := v.startGeneration generation
    let v := cfg.addPrekeys v false wall ((List.range cfg.options.poolTarget).map draw)
    let v := cfg.addPrekeys v true wall [draw cfg.options.poolTarget]
    (v, ⟨wall, true, generation, v.notUploaded, true⟩)
  else
    let v := cfg.topUp v status wall draw
    let v := cfg.rotateLastResort v status wall (draw cfg.options.poolTarget)
    (v, ⟨wall, false, v.generation, v.notUploaded, true⟩)

def batch (r : UploadRound) : List Prekey := r.pending.take maxPrekeysPerPut

def putMessage (r : UploadRound) : PrekeyPut :=
  ⟨r.replace && r.first, r.generation, (batch r).map Prekey.entry⟩

/-- The relay's side of one upload; a malformed message ends the session. -/
def handlePut (s : RelayStore) (m : PrekeyPut) (now : Time) : Bool × RelayStore :=
  if m.wellFormed then
    match s.putPrekeys cfg.mailboxId m.replace m.generation m.prekeys now cfg.maxPrekeys with
    | (.ok, s) => (true, s)
    | (_, s) => (false, s)
  else (false, s)

def confirm (wall : Time) (v : PrekeyVault) (p : Prekey) : PrekeyVault :=
  let v := v.markUploaded p.id
  if p.lastResort then v.retireLastResortExcept p.id wall else v

/-! ## The rows that are made and confirmed -/

def newRow (lastResort : Bool) (wall : Time) (m : KeyMaterial) : VaultRow :=
  let g := generatePrekey cfg.sign m lastResort wall
  ⟨m.id, g.secret, some g.prekey, lastResort, wall, false, none⟩

variable {cfg}

theorem addPrekeys_generation (v : PrekeyVault) (lastResort : Bool) (wall : Time)
    (ms : List KeyMaterial) : (cfg.addPrekeys v lastResort wall ms).generation = v.generation := by
  unfold addPrekeys
  induction ms generalizing v with
  | nil => rfl
  | cons m ms ih => exact ih _

theorem mem_addPrekeys {v : PrekeyVault} {lastResort : Bool} {wall : Time} {ms : List KeyMaterial}
    {r : VaultRow} (hr : r ∈ v.rows) (hnew : ∀ m ∈ ms, r.id ≠ m.id) :
    r ∈ (cfg.addPrekeys v lastResort wall ms).rows := by
  unfold addPrekeys
  induction ms generalizing v with
  | nil => exact hr
  | cons m ms ih =>
    refine ih ?_ fun m' hm' => hnew m' (List.mem_cons_of_mem _ hm')
    refine List.mem_append_left _ (List.mem_filter.2 ⟨hr, ?_⟩)
    exact decide_eq_true (hnew m List.mem_cons_self)

/-- Prekeys with new IDs are added behind those that are there. -/
theorem addPrekeys_rows {v : PrekeyVault} {lastResort : Bool} {wall : Time} {ms : List KeyMaterial}
    (hnodup : (ms.map (·.id)).Nodup) (hnew : ∀ m ∈ ms, ∀ r ∈ v.rows, r.id ≠ m.id) :
    (cfg.addPrekeys v lastResort wall ms).rows = v.rows ++ ms.map (cfg.newRow lastResort wall) := by
  unfold addPrekeys
  induction ms generalizing v with
  | nil => simp
  | cons m ms ih =>
    obtain ⟨hm, hms⟩ := List.nodup_cons.1 hnodup
    have hadd : (v.add (generatePrekey cfg.sign m lastResort wall) wall).rows =
        v.rows ++ [cfg.newRow lastResort wall m] := by
      have hkeep : v.rows.filter
          (·.id ≠ (generatePrekey cfg.sign m lastResort wall).prekey.id) = v.rows := by
        rw [List.filter_eq_self]
        intro r hr
        exact decide_eq_true (hnew m List.mem_cons_self r hr)
      unfold PrekeyVault.add
      rw [hkeep]
      rfl
    rw [List.foldl_cons, ih hms, hadd, List.map_cons, List.append_assoc, List.singleton_append]
    intro m' hm' r hr
    rw [hadd] at hr
    rcases List.mem_append.1 hr with hr | hr
    · exact hnew m' (List.mem_cons_of_mem _ hm') r hr
    · rw [List.mem_singleton.1 hr]
      intro heq
      exact hm (List.mem_map.2 ⟨m', hm', heq.symm⟩)

/-- What the confirmation of one prekey does to a row. -/
def confirmRow (wall : Time) (r : VaultRow) (p : Prekey) : VaultRow :=
  let r := if r.id = p.id then { r with uploaded := true, prekey := none } else r
  if p.lastResort ∧ r.lastResort ∧ r.retiredAt = none ∧ r.id ≠ p.id then
    { r with retiredAt := some wall } else r

theorem confirm_eq (wall : Time) (v : PrekeyVault) (p : Prekey) :
    confirm wall v p = { v with rows := v.rows.map (confirmRow wall · p) } := by
  unfold confirm PrekeyVault.markUploaded PrekeyVault.retireLastResortExcept confirmRow
  by_cases hp : p.lastResort = true <;> simp [hp, Function.comp_def]

theorem foldl_confirm (wall : Time) (ps : List Prekey) (v : PrekeyVault) :
    ps.foldl (confirm wall) v = { v with rows := v.rows.map (ps.foldl (confirmRow wall) ·) } := by
  induction ps generalizing v with
  | nil => simp
  | cons p ps ih =>
    rw [List.foldl_cons, ih, confirm_eq]
    simp [Function.comp_def]

/-- A confirmation keeps what a row is; it is marked if it is one of those confirmed, and retired only
if it is a last-resort prekey and another one was confirmed. -/
structure Confirmed (ps : List Prekey) (r r' : VaultRow) : Prop where
  id : r'.id = r.id
  lastResort : r'.lastResort = r.lastResort
  createdAt : r'.createdAt = r.createdAt
  uploaded : r'.uploaded = true ↔ r.uploaded = true ∨ ∃ p ∈ ps, p.id = r.id
  prekey : r'.uploaded = false → r'.prekey = r.prekey
  retiredAt : r'.retiredAt = r.retiredAt ∨
    r.lastResort = true ∧ ∃ p ∈ ps, p.lastResort = true ∧ p.id ≠ r.id

theorem confirmed_confirmRow (wall : Time) (r : VaultRow) (p : Prekey) :
    Confirmed [p] r (confirmRow wall r p) := by
  unfold confirmRow
  by_cases hid : r.id = p.id
  · refine ⟨?_, ?_, ?_, ?_, ?_, ?_⟩ <;> simp [hid]
  · by_cases hp : p.lastResort ∧ r.lastResort ∧ r.retiredAt = none
    · obtain ⟨hp1, hp2, hp3⟩ := hp
      refine ⟨?_, ?_, ?_, ?_, ?_, .inr ⟨hp2, p, List.mem_singleton_self p, hp1, Ne.symm hid⟩⟩ <;>
        simp [hid, Ne.symm hid, hp1, hp2, hp3]
    · have hno : ¬(p.lastResort ∧ r.lastResort ∧ r.retiredAt = none ∧ r.id ≠ p.id) :=
        fun h => hp ⟨h.1, h.2.1, h.2.2.1⟩
      simp only [hid, if_false, hno]
      exact ⟨rfl, rfl, rfl, by simp [Ne.symm hid], fun _ => rfl, .inl rfl⟩

theorem confirmed_foldl (wall : Time) (ps : List Prekey) (r : VaultRow) :
    Confirmed ps r (ps.foldl (confirmRow wall) r) := by
  induction ps generalizing r with
  | nil => exact ⟨rfl, rfl, rfl, by simp, fun _ => rfl, .inl rfl⟩
  | cons p ps ih =>
    have h₁ := confirmed_confirmRow wall r p
    have h₂ := ih (confirmRow wall r p)
    rw [List.foldl_cons]
    refine ⟨h₂.id.trans h₁.id, h₂.lastResort.trans h₁.lastResort, h₂.createdAt.trans h₁.createdAt,
      ?_, ?_, ?_⟩
    · rw [h₂.uploaded, h₁.uploaded, h₁.id]
      simp [or_assoc]
    · intro hup
      rw [h₂.prekey hup]
      refine h₁.prekey ?_
      have := h₂.uploaded.not.1 (by simp [hup])
      simpa using (not_or.1 this).1
    · rcases h₂.retiredAt with h | ⟨hl, p', hp', hl', hne⟩
      · rcases h₁.retiredAt with h' | ⟨hl, p', hp', hl', hne⟩
        · exact .inl (h.trans h')
        · rw [List.mem_singleton.1 hp'] at hl' hne
          exact .inr ⟨hl, p, List.mem_cons_self, hl', hne⟩
      · rw [h₁.lastResort] at hl
        rw [h₁.id] at hne
        exact .inr ⟨hl, p', List.mem_cons_of_mem _ hp', hl', hne⟩

end PrekeySetup

namespace PrekeyWorld

variable (cfg : PrekeySetup)

/-- One upload; without the answer the rest waits for the next round. -/
def upload (w : PrekeyWorld) (r : UploadRound) (now : Time) (fate : UploadFate) : PrekeyWorld :=
  match fate with
  | .requestLost => { w with phase := .uploading { r with pending := [] } }
  | .replyLost =>
    { w with
      store := (cfg.handlePut w.store (PrekeySetup.putMessage r) now).2
      phase := .uploading { r with pending := [] } }
  | .delivered =>
    match cfg.handlePut w.store (PrekeySetup.putMessage r) now with
    | (false, store) => { w with store := store, phase := .uploading { r with pending := [] } }
    | (true, store) =>
      { w with
        store := store
        vault := (PrekeySetup.batch r).foldl (PrekeySetup.confirm r.wall) w.vault
        phase := .uploading
          { r with pending := r.pending.drop maxPrekeysPerPut, first := false } }

def forget (w : PrekeyWorld) (wall : Time) : PrekeyVault :=
  w.vault.forgetOld (wall - cfg.options.retiredLastResortKeepSeconds)
    (wall - cfg.options.unusedPrekeyKeepSeconds)

def take (w : PrekeyWorld) (tokenHash : Digest) (now : Time) : PrekeyWorld :=
  match w.store.takePrekey cfg.mailboxId tokenHash now cfg.takesPerHour with
  | (.ok row, store) =>
    let out : HandedOut := ⟨row, w.store.generationOf cfg.mailboxId⟩
    { w with store := store, flight := w.flight ++ [out], handed := w.handed ++ [out] }
  | (_, store) => { w with store := store }

def land (w : PrekeyWorld) (id : Bytes) : PrekeyWorld :=
  { w with flight := w.flight.eraseP (·.row.id = id) }

/-- An envelope that cannot be opened is dropped; one that was stored uses its prekey up; the others
are tried again. -/
def receive (w : PrekeyWorld) (id : Bytes) (stored : Bool) : PrekeyWorld :=
  if (w.vault.find id).isNone then w.land id
  else if stored then { w.land id with vault := w.vault.eraseOneTime id }
  else w

def step (w : PrekeyWorld) : PrekeyEvent → Option PrekeyWorld
  | .status =>
    match w.phase with
    | .idle => some { w with phase := .asked (w.store.prekeyStatus cfg.mailboxId) }
    | _ => none
  | .prepare wall generation draw =>
    match w.phase with
    | .asked status =>
      let (vault, r) := cfg.prepareRound w.vault status wall generation draw
      some { w with
        vault := vault
        phase := .uploading r
        drawn := w.drawn ++ cfg.drawnIds draw
        generations := w.generations ++ [generation] }
    | _ => none
  | .upload now fate =>
    match w.phase with
    | .uploading r => if r.pending = [] then none else some (w.upload cfg r now fate)
    | _ => none
  | .finish =>
    match w.phase with
    | .uploading r =>
      if r.pending = [] then some { w with vault := w.forget cfg r.wall, phase := .idle } else none
    | _ => none
  | .take tokenHash now => some (w.take cfg tokenHash now)
  | .receive id stored =>
    match w.phase with
    | .idle => if w.flight.any (·.row.id = id) then some (w.receive id stored) else none
    | _ => none
  | .lose id => some (w.land id)

/-- What is asked of the random numbers: IDs and generations that were not drawn before. -/
def RandomFresh (w : PrekeyWorld) : PrekeyEvent → Prop
  | .prepare _ generation draw =>
    generation ≠ [] ∧ generation ∉ w.generations ∧ (cfg.drawnIds draw).Nodup ∧
      ∀ id ∈ cfg.drawnIds draw, id ∉ w.drawn
  | _ => True

def Step (w : PrekeyWorld) (e : PrekeyEvent) (w' : PrekeyWorld) : Prop :=
  w.step cfg e = some w' ∧ w.RandomFresh cfg e

/-- What a step can do, and in which phase. -/
inductive Stepped (w : PrekeyWorld) : PrekeyEvent → PrekeyWorld → Prop
  | status (hphase : w.phase = .idle) :
    Stepped w .status { w with phase := .asked (w.store.prekeyStatus cfg.mailboxId) }
  | prepare {wall : Time} {generation : Bytes} {draw : ℕ → KeyMaterial} {w' : PrekeyWorld}
      (status : PrekeyStatus) (hphase : w.phase = .asked status)
      (hfresh : w.RandomFresh cfg (.prepare wall generation draw))
      (hstep : w.step cfg (.prepare wall generation draw) = some w') :
    Stepped w (.prepare wall generation draw) w'
  | upload {now : Time} {fate : UploadFate} (r : UploadRound) (hphase : w.phase = .uploading r)
      (hne : r.pending ≠ []) : Stepped w (.upload now fate) (w.upload cfg r now fate)
  | finish (r : UploadRound) (hphase : w.phase = .uploading r) (hdone : r.pending = []) :
    Stepped w .finish { w with vault := w.forget cfg r.wall, phase := .idle }
  | take {tokenHash : Digest} {now : Time} :
    Stepped w (.take tokenHash now) (w.take cfg tokenHash now)
  | receive {id : Bytes} {stored : Bool} (hphase : w.phase = .idle)
      (hflight : ∃ f ∈ w.flight, f.row.id = id) :
    Stepped w (.receive id stored) (w.receive id stored)
  | lose {id : Bytes} : Stepped w (.lose id) (w.land id)

variable {cfg}

theorem Step.cases {w w' : PrekeyWorld} {e : PrekeyEvent} (h : Step cfg w e w') :
    Stepped cfg w e w' := by
  obtain ⟨hstep, hfresh⟩ := h
  cases e with
  | status =>
    simp only [step] at hstep
    split at hstep
    · rename_i hphase
      obtain rfl := Option.some.inj hstep
      exact .status hphase
    · simp at hstep
  | prepare wall generation draw =>
    cases hphase : w.phase with
    | asked status => exact .prepare status hphase hfresh hstep
    | idle => simp [step, hphase] at hstep
    | uploading r => simp [step, hphase] at hstep
  | upload now fate =>
    simp only [step] at hstep
    split at hstep
    · rename_i r hphase
      split_ifs at hstep with hne
      obtain rfl := Option.some.inj hstep
      exact .upload r hphase hne
    · simp at hstep
  | finish =>
    simp only [step] at hstep
    split at hstep
    · rename_i r hphase
      split_ifs at hstep with hdone
      obtain rfl := Option.some.inj hstep
      exact .finish r hphase hdone
    · simp at hstep
  | take tokenHash now =>
    obtain rfl := Option.some.inj hstep
    exact .take
  | receive id stored =>
    simp only [step] at hstep
    split at hstep
    · rename_i hphase
      split_ifs at hstep with hany
      obtain rfl := Option.some.inj hstep
      exact .receive hphase (by simpa using hany)
    · simp at hstep
  | lose id =>
    obtain rfl := Option.some.inj hstep
    exact .lose

end PrekeyWorld

end PqSuite
