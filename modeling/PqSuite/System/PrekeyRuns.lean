import PqSuite.Lib.Reach
import PqSuite.System.PrekeyRounds

/-!
# What the relay hands out and what the device can open

`prekeys_openable`: as long as `forget_old` meets no prekey that the relay still has or that an envelope
is on its way to, every prekey of the current generation can be opened. `oneTime_handed_once`: as long
as no batch is uploaded again after all of it was taken, no one-time prekey goes to two senders.
-/

namespace PqSuite

open Relay Reach

namespace PrekeyWorld

variable {cfg : PrekeySetup} {w w' : PrekeyWorld} {r : UploadRound}

/-! ## Every run -/

def Delivered : PrekeyEvent → Prop
  | .upload _ fate => fate = .delivered
  | _ => True

/-- No one-time prekey that is too old is still on the relay or on its way, and no last-resort prekey
that was retired too long ago is on its way. -/
abbrev NoOldNeeded (cfg : PrekeySetup) (w : PrekeyWorld) (wall : Time) : Prop :=
  (∀ row ∈ w.vault.rows, row.lastResort = false → row.uploaded = true →
      row.createdAt < wall - cfg.options.unusedPrekeyKeepSeconds →
      (∀ p ∈ w.pool cfg, p.id ≠ row.id) ∧ ∀ f ∈ w.flight, f.row.id ≠ row.id) ∧
    ∀ row ∈ w.vault.rows, row.lastResort = true →
      row.retiredAt.any (· < wall - cfg.options.retiredLastResortKeepSeconds) = true →
      ∀ f ∈ w.flight, f.row.id ≠ row.id

def NothingOldNeeded (cfg : PrekeySetup) (w : PrekeyWorld) : PrekeyEvent → Prop
  | .finish => ∀ r ∈ w.phase.round, w.NoOldNeeded cfg r.wall
  | _ => True

theorem Held.finish (h : w.Held cfg) (hphase : w.phase = .uploading r)
    (hold : w.NothingOldNeeded cfg .finish) :
    Held cfg { w with vault := w.forget cfg r.wall, phase := .idle } := by
  obtain ⟨hone, hlast⟩ := hold r (by simp [hphase, PrekeyPhase.round])
  have hkeep : ∀ row ∈ w.vault.rows, PrekeyVault.isOld
      (r.wall - cfg.options.retiredLastResortKeepSeconds)
      (r.wall - cfg.options.unusedPrekeyKeepSeconds) row = false →
      row ∈ (w.forget cfg r.wall).rows :=
    fun row hrow hnot => List.mem_filter.2 ⟨hrow, by simp [hnot]⟩
  refine ⟨fun hc p hp => ?_, fun hg f hf hfg => ?_⟩
  · obtain ⟨row, hrow, hid, hl, hup, hret⟩ := h.pool hc p hp
    refine ⟨row, hkeep row hrow ?_, hid, hl, hup, hret⟩
    by_contra hnot
    rw [Bool.not_eq_false, PrekeyVault.isOld_iff] at hnot
    rcases hnot with ⟨-, t, ht, -⟩ | ⟨hlr, -, hlt⟩
    · simp [hret] at ht
    · exact (hone row hrow hlr hup hlt).1 p hp hid.symm
  · obtain ⟨row, hrow, hid, hl⟩ := h.flight hg f hf hfg
    refine ⟨row, hkeep row hrow ?_, hid, hl⟩
    by_contra hnot
    rw [Bool.not_eq_false, PrekeyVault.isOld_iff] at hnot
    rcases hnot with ⟨hlr, t, ht, hlt⟩ | ⟨hlr, hup, hlt⟩
    · exact hlast row hrow hlr (by simp [ht, hlt]) f hf hid.symm
    · exact (hone row hrow hlr hup hlt).2 f hf hid.symm

/-- While every answer arrives, each step keeps what is known, and keeps the private halves unless it
forgets one that is needed. -/
theorem step_keeps {e : PrekeyEvent} (h : w.Base cfg) (hstep : Step cfg w e w')
    (hdel : Delivered e) :
    w'.Base cfg ∧ (w.Held cfg → w.NothingOldNeeded cfg e → w'.Held cfg) := by
  cases hstep.cases with
  | status _ => exact ⟨h.setPhase rfl, fun hh _ => ⟨hh.pool, hh.flight⟩⟩
  | prepare status hphase hfresh hstep =>
    obtain ⟨hb, hh⟩ := prepare_keeps h hphase hfresh hstep
    exact ⟨hb, fun h' _ => hh h'⟩
  | @upload now _ r hphase _ =>
    obtain rfl := hdel
    obtain ⟨hb, hh⟩ := upload_keeps h hphase now
    exact ⟨hb, fun h' _ => hh h'⟩
  | finish r hphase _ =>
    exact ⟨h.of_rows List.filter_sublist, fun hh hold => hh.finish hphase hold⟩
  | take => exact ⟨h.take _ _, fun hh _ => hh.take _ _⟩
  | receive hphase hflight => exact ⟨h.receive hphase _ _, fun hh _ => hh.receive h hflight _⟩
  | lose => exact ⟨h.land _, fun hh _ => hh.land _⟩

/-- The device can open an envelope sealed to any prekey that the relay can still hand out under its
generation, and any that is on its way. -/
structure Openable (cfg : PrekeySetup) (w : PrekeyWorld) : Prop where
  pool : w.Current cfg → ∀ p ∈ w.pool cfg, (w.vault.find p.id).isSome = true
  flight : w.vault.generation ≠ [] → ∀ f ∈ w.flight, f.generation = some w.vault.generation →
    (w.vault.find f.row.id).isSome = true

theorem Held.openable (h : w.Held cfg) : w.Openable cfg where
  pool hc p hp := by
    obtain ⟨r, hr, hid, -⟩ := h.pool hc p hp
    exact PrekeyVault.find_isSome.2 ⟨r, hr, hid⟩
  flight hg f hf hfg := by
    obtain ⟨r, hr, hid, -⟩ := h.flight hg f hf hfg
    exact PrekeyVault.find_isSome.2 ⟨r, hr, hid⟩

theorem base_of_delivered
    (h : Reachable (Init cfg) (Under (fun _ e => Delivered e) (Step cfg)) w) : w.Base cfg := by
  refine h.invariant (fun w h => h.base) ?_
  rintro w e w' hb ⟨hdel, hstep⟩
  exact (step_keeps hb hstep hdel).1

/-- In every run in which every answer arrives and no round ends while a prekey that is too old is
still needed, the device can open what is sealed to its prekeys. -/
theorem prekeys_openable (cfg : PrekeySetup) (w : PrekeyWorld)
    (h : Reachable (Init cfg)
      (Under (fun w e => Delivered e ∧ w.NothingOldNeeded cfg e) (Step cfg)) w) :
    w.Openable cfg := by
  have hinv : w.Base cfg ∧ w.Held cfg := by
    refine h.invariant (P := fun w => w.Base cfg ∧ w.Held cfg) (fun w h => ⟨h.base, h.held⟩) ?_
    rintro w e w' ⟨hb, hh⟩ ⟨⟨hdel, hold⟩, hstep⟩
    obtain ⟨hb', hh'⟩ := step_keeps hb hstep hdel
    exact ⟨hb', hh' hh hold⟩
  exact hinv.2.openable

/-! ## One-time prekeys go out once -/

/-- A batch holds no one-time prekey that was handed out already, or the relay refuses it because it
still has one of its prekeys. -/
abbrev BatchOnce (cfg : PrekeySetup) (w : PrekeyWorld) (r : UploadRound) : Prop :=
  (∀ p ∈ PrekeySetup.batch r, p.lastResort = false → p.id ∉ w.handedOneTime) ∨
    (r.replace && r.first) = false ∧ ∃ p ∈ PrekeySetup.batch r, ∃ q ∈ w.pool cfg, q.id = p.id

def RetryRefused (cfg : PrekeySetup) (w : PrekeyWorld) : PrekeyEvent → Prop
  | .upload _ _ => ∀ r ∈ w.phase.round, w.BatchOnce cfg r
  | _ => True

structure Once (cfg : PrekeySetup) (w : PrekeyWorld) : Prop where
  poolIds : ((w.pool cfg).map (·.id)).Nodup
  handed : w.handedOneTime.Nodup
  pool : ∀ p ∈ w.pool cfg, p.lastResort = false → p.id ∉ w.handedOneTime

theorem nodup_handedOneTime (h : w.handed.Pairwise fun f g => Apart f.row g.row) :
    w.handedOneTime.Nodup := by
  unfold handedOneTime
  rw [List.Nodup, List.pairwise_map]
  refine (h.sublist List.filter_sublist).imp_of_mem fun {f g} hf _ hfg => hfg (.inl ?_)
  simpa using (List.mem_filter.1 hf).2

theorem Init.once (h : w.Init cfg) : w.Once cfg where
  poolIds := h.poolIds
  handed := nodup_handedOneTime h.handedOnce
  pool p hp hone hin := by
    obtain ⟨f, hf, hid⟩ := List.mem_map.1 hin
    exact h.poolNotHanded p hp f (List.mem_of_mem_filter hf) (.inr hone) hid

theorem handedOneTime_append (w : PrekeyWorld) (s : RelayStore) (f : HandedOut) :
    handedOneTime { w with store := s, flight := w.flight ++ [f], handed := w.handed ++ [f] } =
      w.handedOneTime ++ if f.row.lastResort then [] else [f.row.id] := by
  cases hf : f.row.lastResort <;> simp [handedOneTime, hf]

theorem Once.take (h : w.Once cfg) (tokenHash : Digest) (now : Time) :
    (w.take cfg tokenHash now).Once cfg := by
  obtain ⟨s, -, ⟨row, hmem, htake, hpool⟩ | ⟨htake, hpool⟩⟩ :=
    take_cases cfg w tokenHash now
  · rw [htake]
    cases hlast : row.lastResort with
    | true =>
      rw [hlast, if_pos rfl] at hpool
      refine ⟨?_, ?_, ?_⟩
      · unfold PrekeyWorld.pool
        rw [hpool]
        exact h.poolIds
      · simpa [handedOneTime_append, hlast] using h.handed
      · unfold PrekeyWorld.pool
        rw [hpool]
        simpa [handedOneTime_append, hlast] using h.pool
    | false =>
      rw [hlast, if_neg Bool.false_ne_true] at hpool
      refine ⟨?_, ?_, ?_⟩
      · unfold PrekeyWorld.pool
        rw [hpool]
        exact h.poolIds.sublist (List.filter_sublist.map _)
      · rw [handedOneTime_append]
        simp only [hlast, Bool.false_eq_true, if_false]
        refine h.handed.append (List.nodup_singleton _) ?_
        rw [List.disjoint_singleton]
        exact h.pool row hmem hlast
      · unfold PrekeyWorld.pool
        rw [hpool, handedOneTime_append]
        intro p hp hone hin
        obtain ⟨hp, hne⟩ := List.mem_filter.1 hp
        simp only [hlast, Bool.false_eq_true, if_false, List.mem_append, List.mem_singleton] at hin
        rcases hin with hin | hin
        · exact h.pool p hp hone hin
        · simp [hin] at hne
  · rw [htake]
    refine ⟨?_, h.handed, ?_⟩
    · unfold PrekeyWorld.pool
      rw [hpool]
      exact h.poolIds
    · unfold PrekeyWorld.pool
      rw [hpool]
      exact h.pool

/-- The relay's side of an upload, whether or not the answer arrives. -/
theorem Once.handlePut (h : w.Once cfg) (hphase : w.phase = .uploading r) (now : Time)
    (fate : UploadFate) (hretry : w.RetryRefused cfg (.upload now fate)) :
    Once cfg { w with store := (cfg.handlePut w.store (PrekeySetup.putMessage r) now).2 } := by
  rcases handlePut_cases cfg w.store (PrekeySetup.putMessage r) now with
    heq | ⟨s, heq, hwf, heff⟩
  · rw [heq]
    exact h
  rw [heq]
  have hnodup : ((PrekeySetup.batch r).map (·.id)).Nodup := by
    simp only [PrekeyPut.wellFormed, decide_eq_true_eq] at hwf
    have := hwf.2.1
    simpa [PrekeySetup.putMessage, Prekey.entry, Function.comp_def] using this
  -- An accepted batch has none of its prekeys in the pool.
  have hbatch : ∀ p ∈ PrekeySetup.batch r, p.lastResort = false → p.id ∉ w.handedOneTime := by
    rcases hretry r (by simp [hphase, PrekeyPhase.round]) with hb | ⟨hrep, p, hp, q, hq, hid⟩
    · exact hb
    · exact absurd hid (heff.fresh hrep p.entry (List.mem_map_of_mem hp) q hq)
  refine ⟨nodup_pool_of_put heff h.poolIds hnodup, h.handed, fun q hq hone => ?_⟩
  rcases mem_pool_of_put (r := r) heff hq with ⟨-, hq⟩ | ⟨p, hp, hid, hlast⟩
  · exact h.pool q hq hone
  · rw [hid]
    exact hbatch p hp (hlast ▸ hone)

theorem Once.upload (h : w.Once cfg) (hphase : w.phase = .uploading r) (now : Time) (fate : UploadFate)
    (hretry : w.RetryRefused cfg (.upload now fate)) : (w.upload cfg r now fate).Once cfg := by
  have hput := h.handlePut hphase now fate hretry
  unfold PrekeyWorld.upload
  cases fate with
  | requestLost => exact ⟨h.poolIds, h.handed, h.pool⟩
  | replyLost => exact ⟨hput.poolIds, hput.handed, hput.pool⟩
  | delivered =>
    generalize cfg.handlePut w.store (PrekeySetup.putMessage r) now = res at hput ⊢
    obtain ⟨ok, s⟩ := res
    cases ok <;> exact ⟨hput.poolIds, hput.handed, hput.pool⟩

theorem Once.step {e : PrekeyEvent} (h : w.Once cfg) (hstep : Step cfg w e w')
    (hretry : w.RetryRefused cfg e) : w'.Once cfg := by
  cases hstep.cases with
  | status _ => exact ⟨h.poolIds, h.handed, h.pool⟩
  | prepare status hphase hfresh hstep =>
    simp only [PrekeyWorld.step, hphase] at hstep
    obtain rfl := Option.some.inj hstep
    exact ⟨h.poolIds, h.handed, h.pool⟩
  | upload r hphase _ => exact h.upload hphase _ _ hretry
  | finish r _ _ => exact ⟨h.poolIds, h.handed, h.pool⟩
  | take => exact h.take _ _
  | @receive id stored _ _ =>
    rcases w.receive_cases id stored with heq | heq | heq
    all_goals
      rw [heq]
      exact ⟨h.poolIds, h.handed, h.pool⟩
  | lose => exact ⟨h.poolIds, h.handed, h.pool⟩

/-- In every run in which no batch goes up again after all of it was taken, whichever answers are lost,
no one-time prekey is handed out twice; nor is one in any run in which every answer arrives. -/
theorem oneTime_handed_once (cfg : PrekeySetup) :
    (∀ w, Reachable (Init cfg) (Under (RetryRefused cfg) (Step cfg)) w → w.handedOneTime.Nodup) ∧
      ∀ w, Reachable (Init cfg) (Under (fun _ e => Delivered e) (Step cfg)) w →
        w.handedOneTime.Nodup := by
  refine ⟨fun w h => ?_, fun w h => nodup_handedOneTime (base_of_delivered h).handedOnce⟩
  refine (h.invariant (P := Once cfg) (fun w h => h.once) ?_).handed
  rintro w e w' hw ⟨hretry, hstep⟩
  exact hw.step hstep hretry

/-! ## Runs that can be evaluated -/

instance (w : PrekeyWorld) : ∀ e, Decidable (w.RandomFresh cfg e)
  | .prepare _ generation draw => inferInstanceAs (Decidable (generation ≠ [] ∧
      generation ∉ w.generations ∧ (cfg.drawnIds draw).Nodup ∧
      ∀ id ∈ cfg.drawnIds draw, id ∉ w.drawn))
  | .status | .upload .. | .finish | .take .. | .receive .. | .lose .. => isTrue trivial

instance : ∀ e, Decidable (Delivered e)
  | .upload _ fate => inferInstanceAs (Decidable (fate = .delivered))
  | .status | .prepare .. | .finish | .take .. | .receive .. | .lose .. => isTrue trivial

instance (w : PrekeyWorld) : ∀ e, Decidable (w.NothingOldNeeded cfg e)
  | .finish => inferInstanceAs (Decidable (∀ r ∈ w.phase.round, w.NoOldNeeded cfg r.wall))
  | .status | .prepare .. | .upload .. | .take .. | .receive .. | .lose .. => isTrue trivial

instance (w : PrekeyWorld) : ∀ e, Decidable (w.RetryRefused cfg e)
  | .upload .. => inferInstanceAs (Decidable (∀ r ∈ w.phase.round, w.BatchOnce cfg r))
  | .status | .prepare .. | .finish | .take .. | .receive .. | .lose .. => isTrue trivial

/-- A step that is possible, draws what is new and meets a condition. -/
def checkedStep (cfg : PrekeySetup) (ok : PrekeyWorld → PrekeyEvent → Prop)
    [∀ w e, Decidable (ok w e)] (w : PrekeyWorld) (e : PrekeyEvent) : Option PrekeyWorld :=
  if ok w e ∧ w.RandomFresh cfg e then w.step cfg e else none

theorem under_of_checkedStep {ok : PrekeyWorld → PrekeyEvent → Prop} [∀ w e, Decidable (ok w e)]
    (w : PrekeyWorld) (e : PrekeyEvent) (w' : PrekeyWorld)
    (h : w.checkedStep cfg ok e = some w') : Under ok (Step cfg) w e w' := by
  unfold checkedStep at h
  split_ifs at h with hc
  exact ⟨hc.1, h, hc.2⟩

/-- A device that keeps twelve one-time prekeys on the relay. -/
def sampleSetup : PrekeySetup where
  mailboxId := [1]
  sign := fun _ => [1]
  options := { poolTarget := 12, lowWater := 4 }

/-- The prekeys drawn in the round `k`. -/
def sampleDraw (k : UInt8) (i : ℕ) : KeyMaterial := ⟨[k, UInt8.ofNat i], [], [], [], []⟩

/-- A device that was just installed, and a relay that has nothing for it. -/
def sampleStart : PrekeyWorld where
  vault := ⟨[], []⟩
  store := { mailboxes := [{ id := [1], accessPublicKey := [9] }] }
  phase := .idle
  flight := []
  handed := []
  drawn := []
  generations := []

theorem sampleStart_init : Init sampleSetup sampleStart where
  generation := rfl
  rows := rfl
  phase := rfl
  flight := List.Sublist.refl _
  poolIds := by decide
  poolDrawn := by decide
  poolGeneration := by simp [relayGeneration, RelayStore.generationOf, sampleStart, Rows.lookup]
  handedDrawn := by simp [sampleStart]
  handedOnce := List.Pairwise.nil
  poolNotHanded := by simp [sampleStart]

/-- What a run from the sample device leads to, if all its steps meet the condition. -/
def sampleRun (ok : PrekeyWorld → PrekeyEvent → Prop) [∀ w e, Decidable (ok w e)]
    (es : List PrekeyEvent) : Option PrekeyWorld :=
  es.foldlM (checkedStep sampleSetup ok) sampleStart

/-- A run that gets through leads to a reachable world with what was checked of it. -/
theorem exists_of_sampleRun {ok : PrekeyWorld → PrekeyEvent → Prop} [∀ w e, Decidable (ok w e)]
    {es : List PrekeyEvent} {P : PrekeyWorld → Bool} (h : (sampleRun ok es).any P = true) :
    ∃ w, Reachable (Init sampleSetup) (Under ok (Step sampleSetup)) w ∧ P w = true := by
  obtain ⟨w, hw, hP⟩ := (Option.any_eq_true _ _).1 h
  exact ⟨w, reachable_foldlM under_of_checkedStep (.start sampleStart_init) es hw, hP⟩

def firstRound : List PrekeyEvent :=
  [.status, .prepare 0 [1] (sampleDraw 0)] ++ List.replicate 2 (.upload 0 .delivered) ++ [.finish]

/-- Another round after 45 days and a second: the relay still has the one-time prekeys of the first, and
the device has forgotten them. -/
theorem upkeep_forgets_pool :
    ∃ w, Reachable (Init sampleSetup) (Under (fun _ e => Delivered e) (Step sampleSetup)) w ∧
      ¬w.Openable sampleSetup := by
  have hrun : (sampleRun (fun _ e => Delivered e) (firstRound ++
      [.status, .prepare 3888001 [2] (sampleDraw 1), .upload 3888001 .delivered, .finish])).any
      (fun w => w.vault.generation = [1] ∧ w.relayGeneration sampleSetup = some [1] ∧
        (w.pool sampleSetup).any fun p => (w.vault.find p.id).isNone) = true := by decide +kernel
  obtain ⟨w, hreach, hw⟩ := exists_of_sampleRun hrun
  simp only [decide_eq_true_eq] at hw
  obtain ⟨hgen, hrelay, hany⟩ := hw
  refine ⟨w, hreach, fun hopen => ?_⟩
  obtain ⟨p, hp, hnone⟩ := List.any_eq_true.1 hany
  have hsome := hopen.pool ⟨by simp [hgen], by rw [hrelay, hgen]⟩ p hp
  rw [Option.isNone_iff_eq_none] at hnone
  simp [hnone] at hsome

theorem prekeys_openable_sample :
    ∃ w : PrekeyWorld, (w.flight.length = 1 ∧ (w.pool sampleSetup).length = 12) ∧
      w.Openable sampleSetup := by
  have hrun : (sampleRun (fun w e => Delivered e ∧ w.NothingOldNeeded sampleSetup e) (firstRound ++
      [.take (byteSum []) 5])).any (fun w => w.flight.length = 1 ∧
        (w.pool sampleSetup).length = 12) = true := by decide +kernel
  obtain ⟨w, hreach, hw⟩ := exists_of_sampleRun hrun
  exact ⟨w, by simpa using hw, prekeys_openable sampleSetup w hreach⟩

/-- The answer to the first upload is lost, senders take the twelve prekeys of it, and the next round
uploads the same twelve: the thirteenth sender gets the prekey of the first. -/
theorem retry_hands_out_twice :
    ∃ w, Reachable (Init sampleSetup) (Under (fun _ _ => True) (Step sampleSetup)) w ∧
      ¬w.handedOneTime.Nodup := by
  have hrun : (sampleRun (fun _ _ => True) ([.status, .prepare 0 [1] (sampleDraw 0),
      .upload 0 .replyLost, .finish] ++ List.replicate 12 (.take (byteSum []) 5) ++
      [.status, .prepare 60 [2] (sampleDraw 1), .upload 60 .delivered, .take (byteSum []) 65])).any
      (fun w => ¬w.handedOneTime.Nodup) = true := by decide +kernel
  obtain ⟨w, hreach, hw⟩ := exists_of_sampleRun hrun
  exact ⟨w, hreach, by simpa using hw⟩

theorem oneTime_handed_once_sample :
    ∃ w : PrekeyWorld, w.handedOneTime.length = 2 ∧ w.handedOneTime.Nodup := by
  have hrun : (sampleRun (RetryRefused sampleSetup) ([.status, .prepare 0 [1] (sampleDraw 0),
      .upload 0 .replyLost, .finish, .take (byteSum []) 5, .take (byteSum []) 6,
      .status, .prepare 60 [2] (sampleDraw 1), .upload 60 .delivered])).any
      (fun w => w.handedOneTime.length = 2) = true := by decide +kernel
  obtain ⟨w, hreach, hw⟩ := exists_of_sampleRun hrun
  exact ⟨w, by simpa using hw, (oneTime_handed_once sampleSetup).1 w hreach⟩

end PrekeyWorld

end PqSuite
