import Mathlib.Data.Set.Function
import PqSuite.System.PrekeyPool

/-!
# The rounds of upkeep

The prekeys of a round are new, so they wait behind those that are there; an upload that is accepted
puts a batch into the relay's pool and marks it in the vault. Both keep `Base` and `Held`.
-/

namespace PqSuite

open Relay

namespace PrekeyWorld

variable {cfg : PrekeySetup} {w w' : PrekeyWorld} {draw : ℕ → KeyMaterial} {wall : Time} {due : Bool}
  {n : ℕ}

/-! ## New prekeys -/

/-- The rows a round makes: `n` one-time prekeys, and a last-resort one if it is due. -/
def newRows (cfg : PrekeySetup) (wall : Time) (draw : ℕ → KeyMaterial) (n : ℕ) (due : Bool) :
    List VaultRow :=
  ((List.range n).map draw).map (cfg.newRow false wall) ++
    (if due then [draw cfg.options.poolTarget] else []).map (cfg.newRow true wall)

/-- A round that starts from the rows `v₀` makes its prekeys behind them. -/
structure Prepared (cfg : PrekeySetup) (v₀ : PrekeyVault) (wall : Time) (draw : ℕ → KeyMaterial)
    (n : ℕ) (due : Bool) (v : PrekeyVault) : Prop where
  le : n ≤ cfg.options.poolTarget
  eq : v = cfg.addPrekeys (cfg.addPrekeys v₀ false wall ((List.range n).map draw)) true wall
    (if due then [draw cfg.options.poolTarget] else [])
  due : due = true → ∀ r ∈ v₀.rows, r.uploaded = false → ∀ p, r.prekey = some p →
    p.lastResort = false

theorem Prepared.generation {v₀ v : PrekeyVault} (h : Prepared cfg v₀ wall draw n due v) :
    v.generation = v₀.generation := by
  rw [h.eq, PrekeySetup.addPrekeys_generation, PrekeySetup.addPrekeys_generation]

theorem Prepared.rows {v₀ v : PrekeyVault} (h : Prepared cfg v₀ wall draw n due v)
    (hinj : Set.InjOn (fun i => (draw i).id) (Set.Iic cfg.options.poolTarget))
    (hnew : ∀ i ≤ cfg.options.poolTarget, ∀ r ∈ v₀.rows, r.id ≠ (draw i).id) :
    v.rows = v₀.rows ++ newRows cfg wall draw n due := by
  have hn := h.le
  have hone : (cfg.addPrekeys v₀ false wall ((List.range n).map draw)).rows =
      v₀.rows ++ ((List.range n).map draw).map (cfg.newRow false wall) := by
    refine PrekeySetup.addPrekeys_rows ?_ fun m hm => ?_
    · rw [List.map_map]
      refine List.Nodup.map_on (fun i hi j hj hij => ?_) List.nodup_range
      have hi := List.mem_range.1 hi
      have hj := List.mem_range.1 hj
      exact hinj (Set.mem_Iic.2 (by omega)) (Set.mem_Iic.2 (by omega)) hij
    · obtain ⟨i, hi, rfl⟩ := List.mem_map.1 hm
      exact hnew i (by have := List.mem_range.1 hi; omega)
  rw [h.eq, PrekeySetup.addPrekeys_rows, hone, List.append_assoc]
  · rfl
  · split_ifs <;> simp
  · intro m hm r hr
    have hm : m = draw cfg.options.poolTarget := by
      split_ifs at hm
      · exact List.mem_singleton.1 hm
      · simp at hm
    rw [hm]
    rw [hone] at hr
    rcases List.mem_append.1 hr with hr | hr
    · exact hnew _ le_rfl r hr
    · obtain ⟨m', hm', rfl⟩ := List.mem_map.1 hr
      obtain ⟨i, hi, rfl⟩ := List.mem_map.1 hm'
      have hi := List.mem_range.1 hi
      intro hid
      have := hinj (Set.mem_Iic.2 (by omega)) (Set.mem_Iic.2 le_rfl) hid
      omega

/-- How many one-time prekeys a round makes that keeps the pool. -/
def missing (cfg : PrekeySetup) (v : PrekeyVault) (status : PrekeyStatus) : ℕ :=
  if status.oneTime.toNat < cfg.options.lowWater ∧ v.pending = 0 then
    cfg.options.poolTarget - status.oneTime.toNat
  else 0

theorem missing_le (cfg : PrekeySetup) (v : PrekeyVault) (status : PrekeyStatus) :
    missing cfg v status ≤ cfg.options.poolTarget := by
  unfold missing
  split_ifs <;> omega

theorem topUp_eq (cfg : PrekeySetup) (v : PrekeyVault) (status : PrekeyStatus) (wall : Time)
    (draw : ℕ → KeyMaterial) :
    cfg.topUp v status wall draw =
      cfg.addPrekeys v false wall ((List.range (missing cfg v status)).map draw) := by
  unfold PrekeySetup.topUp missing
  split_ifs <;> rfl

theorem rotateLastResort_eq (cfg : PrekeySetup) (v : PrekeyVault) (status : PrekeyStatus)
    (wall : Time) (m : KeyMaterial) :
    ∃ due : Bool, (due = true → v.notUploaded.any (·.lastResort) = false) ∧
      cfg.rotateLastResort v status wall m =
        cfg.addPrekeys v true wall (if due then [m] else []) := by
  unfold PrekeySetup.rotateLastResort
  dsimp only
  split_ifs with hdue
  · exact ⟨true, fun _ => by simpa using (Bool.and_eq_true_iff.1 hdue).2, rfl⟩
  · exact ⟨false, by simp, rfl⟩

/-- A round makes its prekeys in a new vault or behind those that are there. -/
theorem prepareRound_cases (cfg : PrekeySetup) (v : PrekeyVault) (status : PrekeyStatus)
    (wall : Time) (generation : Bytes) (draw : ℕ → KeyMaterial)
    (hnew : ∀ i ≤ cfg.options.poolTarget, ∀ r ∈ v.rows, r.id ≠ (draw i).id) :
    ∃ v' due r, cfg.prepareRound v status wall generation draw = (v', r) ∧
      r.pending = v'.notUploaded ∧ r.first = true ∧ r.generation = v'.generation ∧
      ((v.generation = [] ∨ status.generation ≠ v.generation) ∧ r.replace = true ∧
          Prepared cfg ⟨generation, []⟩ wall draw cfg.options.poolTarget due v' ∨
        (v.generation ≠ [] ∧ status.generation = v.generation) ∧ r.replace = false ∧
          Prepared cfg v wall draw (missing cfg v status) due v') := by
  unfold PrekeySetup.prepareRound
  split_ifs with hrep
  · refine ⟨_, true, _, rfl, rfl, rfl, ?_, .inl ⟨hrep, rfl, le_rfl, rfl, ?_⟩⟩
    · simp [PrekeySetup.addPrekeys_generation, PrekeyVault.startGeneration]
    · simp
  · have htop := topUp_eq cfg v status wall draw
    have hn := missing_le cfg v status
    obtain ⟨due, hdue, hrot⟩ := rotateLastResort_eq cfg (cfg.topUp v status wall draw)
      status wall (draw cfg.options.poolTarget)
    push Not at hrep
    refine ⟨_, due, _, rfl, rfl, rfl, rfl, .inr ⟨hrep, rfl, hn, ?_, fun hd r hr hup p hp => ?_⟩⟩
    · rw [hrot, htop]
    · have hany := hdue hd
      rw [List.any_eq_false] at hany
      have hmem : p ∈ (cfg.topUp v status wall draw).notUploaded := by
        refine PrekeyVault.mem_notUploaded.2 ⟨r, ?_, hup, hp⟩
        rw [htop]
        refine PrekeySetup.mem_addPrekeys hr fun m hm => ?_
        obtain ⟨i, hi, rfl⟩ := List.mem_map.1 hm
        exact hnew i (by have := List.mem_range.1 hi; omega) r hr
      simpa using hany p hmem

structure IsNew (cfg : PrekeySetup) (draw : ℕ → KeyMaterial) (due : Bool) (r : VaultRow) :
    Prop where
  id : ∃ i ≤ cfg.options.poolTarget, r.id = (draw i).id
  uploaded : r.uploaded = false
  retiredAt : r.retiredAt = none
  prekey : ∃ p, r.prekey = some p ∧ p.id = r.id ∧ p.lastResort = r.lastResort
  lastResort : r.lastResort = true → due = true ∧ r.id = (draw cfg.options.poolTarget).id

theorem isNew_of_mem {r : VaultRow} (hn : n ≤ cfg.options.poolTarget)
    (hr : r ∈ newRows cfg wall draw n due) : IsNew cfg draw due r := by
  rcases List.mem_append.1 hr with hr | hr
  · obtain ⟨m, hm, rfl⟩ := List.mem_map.1 hr
    obtain ⟨i, hi, rfl⟩ := List.mem_map.1 hm
    have hi := List.mem_range.1 hi
    exact ⟨⟨i, by omega, rfl⟩, rfl, rfl, ⟨_, rfl, rfl, rfl⟩, fun h => absurd h Bool.false_ne_true⟩
  · obtain ⟨m, hm, rfl⟩ := List.mem_map.1 hr
    split_ifs at hm with hdue
    · rw [List.mem_singleton.1 hm]
      exact ⟨⟨_, le_rfl, rfl⟩, rfl, rfl, ⟨_, rfl, rfl, rfl⟩, fun _ => ⟨hdue, rfl⟩⟩
    · simp at hm

theorem nodup_newRows (hn : n ≤ cfg.options.poolTarget)
    (hinj : Set.InjOn (fun i => (draw i).id) (Set.Iic cfg.options.poolTarget)) :
    ((newRows cfg wall draw n due).map (·.id)).Nodup := by
  have hids : (newRows cfg wall draw n due).map (·.id) =
      (List.range n ++ if due then [cfg.options.poolTarget] else []).map fun i => (draw i).id := by
    cases due <;> simp [newRows, PrekeySetup.newRow, Function.comp_def]
  rw [hids]
  have hle : ∀ i ∈ List.range n ++ (if due then [cfg.options.poolTarget] else []),
      i ≤ cfg.options.poolTarget := by
    intro i hi
    rcases List.mem_append.1 hi with hi | hi
    · have := List.mem_range.1 hi
      omega
    · split_ifs at hi
      · exact (List.mem_singleton.1 hi).le
      · simp at hi
  refine List.Nodup.map_on
    (fun i hi j hj => hinj (Set.mem_Iic.2 (hle i hi)) (Set.mem_Iic.2 (hle j hj))) ?_
  refine List.Nodup.append List.nodup_range (by split_ifs <;> simp) ?_
  split_ifs
  · rw [List.disjoint_singleton, List.mem_range]
    omega
  · simp

/-! ## The rows of the vault -/

/-- What holds of the rows whichever answers arrive: they are different and were drawn, and those that
wait for their upload have their public half, at most one of them a last-resort prekey. -/
structure Vaulted (v : PrekeyVault) (drawn : List Bytes) : Prop where
  ids : (v.rows.map (·.id)).Nodup
  rowsDrawn : ∀ r ∈ v.rows, r.id ∈ drawn
  prekey : ∀ r ∈ v.rows, r.uploaded = false →
    ∃ p, r.prekey = some p ∧ p.id = r.id ∧ p.lastResort = r.lastResort
  lastResort : ∀ r ∈ v.rows, ∀ r' ∈ v.rows, r.uploaded = false → r'.uploaded = false →
    r.lastResort = true → r'.lastResort = true → r.id = r'.id

theorem Base.vaulted (h : w.Base cfg) : Vaulted w.vault w.drawn :=
  ⟨h.rowIds, h.rowsDrawn, fun r hr hup => (h.unsent r hr hup).prekey, h.unsentLastResort⟩

section Rows

variable {v v₀ : PrekeyVault} {drawn : List Bytes} {wall : Time} {generation : Bytes}
  {draw : ℕ → KeyMaterial} {n : ℕ} {due : Bool}

theorem Vaulted.of_sublist (h : Vaulted v drawn) (hsub : v₀.rows.Sublist v.rows) :
    Vaulted v₀ drawn :=
  ⟨h.ids.sublist (hsub.map _), fun r hr => h.rowsDrawn r (hsub.subset hr),
    fun r hr => h.prekey r (hsub.subset hr),
    fun r hr r' hr' => h.lastResort r (hsub.subset hr) r' (hsub.subset hr')⟩

theorem newRows_fresh (hn : n ≤ cfg.options.poolTarget)
    (hdraw : ∀ i ≤ cfg.options.poolTarget, (draw i).id ∉ drawn) :
    ∀ row ∈ newRows cfg wall draw n due, row.id ∉ drawn := by
  intro row hrow
  obtain ⟨i, hi, hid⟩ := (isNew_of_mem hn hrow).id
  rw [hid]
  exact hdraw i hi

/-- The rows after the prekeys of a round are made. -/
theorem Vaulted.rows_prepared (h : Vaulted v₀ drawn) (hp : Prepared cfg v₀ wall draw n due v)
    (hinj : Set.InjOn (fun i => (draw i).id) (Set.Iic cfg.options.poolTarget))
    (hdraw : ∀ i ≤ cfg.options.poolTarget, (draw i).id ∉ drawn) :
    v.rows = v₀.rows ++ newRows cfg wall draw n due :=
  hp.rows hinj fun i hi row hrow heq => hdraw i hi (heq ▸ h.rowsDrawn row hrow)

/-- New rows behind old ones keep what is known of the rows. -/
theorem Vaulted.prepared (h : Vaulted v₀ drawn) (hp : Prepared cfg v₀ wall draw n due v)
    (hinj : Set.InjOn (fun i => (draw i).id) (Set.Iic cfg.options.poolTarget))
    (hdraw : ∀ i ≤ cfg.options.poolTarget, (draw i).id ∉ drawn) :
    Vaulted v (drawn ++ cfg.drawnIds draw) := by
  have hrows := h.rows_prepared hp hinj hdraw
  have hfresh : ∀ row ∈ newRows cfg wall draw n due, row.id ∉ drawn := newRows_fresh hp.le hdraw
  have hcases : ∀ row ∈ v.rows, row ∈ v₀.rows ∨ row ∈ newRows cfg wall draw n due := by
    intro row hrow
    rw [hrows] at hrow
    exact List.mem_append.1 hrow
  refine ⟨?_, fun row hrow => ?_, fun row hrow hup => ?_, ?_⟩
  · rw [hrows, List.map_append]
    refine h.ids.append (nodup_newRows hp.le hinj) ?_
    intro id hid hid'
    obtain ⟨row, hrow, rfl⟩ := List.mem_map.1 hid
    obtain ⟨row', hrow', heq⟩ := List.mem_map.1 hid'
    exact hfresh row' hrow' (heq ▸ h.rowsDrawn row hrow)
  · rcases hcases row hrow with hrow | hrow
    · exact List.mem_append_left _ (h.rowsDrawn row hrow)
    · obtain ⟨i, hi, hid⟩ := (isNew_of_mem hp.le hrow).id
      exact List.mem_append_right _ (List.mem_map.2 ⟨i, List.mem_range.2 (by omega), hid.symm⟩)
  · rcases hcases row hrow with hrow | hrow
    · exact h.prekey row hrow hup
    · exact (isNew_of_mem hp.le hrow).prekey
  · -- A last-resort prekey is made only while no other one waits.
    have hmixed : ∀ row ∈ v₀.rows, ∀ row' ∈ newRows cfg wall draw n due, row.uploaded = false →
        row.lastResort = true → row'.lastResort = true → False := by
      intro row hrow row' hrow' hup hl hl'
      obtain ⟨p, hpk, -, hpl⟩ := h.prekey row hrow hup
      have := hp.due ((isNew_of_mem hp.le hrow').lastResort hl').1 row hrow hup p hpk
      rw [hpl, hl] at this
      simp at this
    intro row hrow row' hrow' hup hup' hl hl'
    rcases hcases row hrow with hrow | hrow <;> rcases hcases row' hrow' with hrow' | hrow'
    · exact h.lastResort row hrow row' hrow' hup hup' hl hl'
    · exact (hmixed row hrow row' hrow' hup hl hl').elim
    · exact (hmixed row' hrow' row hrow hup' hl' hl).elim
    · exact ((isNew_of_mem hp.le hrow).lastResort hl).2.trans
        ((isNew_of_mem hp.le hrow').lastResort hl').2.symm

/-- What is to be uploaded are the rows that wait for it. -/
theorem Vaulted.pending (h : Vaulted v drawn) :
    (v.notUploaded.map (·.id)).Nodup ∧ ∀ p ∈ v.notUploaded, ∃ row ∈ v.rows,
      row.id = p.id ∧ row.lastResort = p.lastResort ∧ row.uploaded = false := by
  have hprekey : ∀ r ∈ v.rows, r.uploaded = false → ∀ p, r.prekey = some p →
      p.id = r.id ∧ p.lastResort = r.lastResort := by
    intro r hr hup p hp
    obtain ⟨p', hp', hid, hlast⟩ := h.prekey r hr hup
    obtain rfl := Option.some.inj (hp.symm.trans hp')
    exact ⟨hid, hlast⟩
  refine ⟨PrekeyVault.nodup_notUploaded h.ids fun r hr hup p hp => (hprekey r hr hup p hp).1, ?_⟩
  intro p hp
  obtain ⟨row, hrow, hup, hpk⟩ := PrekeyVault.mem_notUploaded.1 hp
  obtain ⟨hid, hlast⟩ := hprekey row hrow hup p hpk
  exact ⟨row, hrow, hid.symm, hlast.symm, hup⟩

end Rows

/-- The world once the prekeys of a round are made, but for the phase. -/
def prepared (cfg : PrekeySetup) (w : PrekeyWorld) (v : PrekeyVault) (generation : Bytes)
    (draw : ℕ → KeyMaterial) : PrekeyWorld :=
  { w with
    vault := v
    phase := .idle
    drawn := w.drawn ++ cfg.drawnIds draw
    generations := w.generations ++ [generation] }

section Prepare

variable {v v₀ : PrekeyVault} {wall : Time} {generation : Bytes}
  {draw : ℕ → KeyMaterial} {n : ℕ} {due : Bool}

theorem Base.prepared (h : w.Base cfg) (hp : Prepared cfg v₀ wall draw n due v)
    (hinj : Set.InjOn (fun i => (draw i).id) (Set.Iic cfg.options.poolTarget))
    (hdraw : ∀ i ≤ cfg.options.poolTarget, (draw i).id ∉ w.drawn)
    (hsub : v₀.rows.Sublist w.vault.rows)
    (hgen : v.generation ∈ w.generations ++ [generation]) :
    (w.prepared cfg v generation draw).Base cfg := by
  have hv₀ := h.vaulted.of_sublist hsub
  have hv := hv₀.prepared hp hinj hdraw
  have hfresh : ∀ row ∈ newRows cfg wall draw n due, row.id ∉ w.drawn :=
    newRows_fresh hp.le hdraw
  have hmono : ∀ id ∈ w.drawn, id ∈ (w.prepared cfg v generation draw).drawn :=
    fun id hid => List.mem_append_left _ hid
  refine ⟨hv.ids, hv.rowsDrawn, fun _ => hgen, h.poolIds, fun p hp => hmono _ (h.poolDrawn p hp),
    fun g hg => List.mem_append_left _ (h.poolGeneration g hg), h.flight, ?_, h.handedOnce,
    h.poolNotHanded, ?_, hv.lastResort, trivial⟩
  · intro f hf
    obtain ⟨hid, hg⟩ := h.handedDrawn f hf
    exact ⟨hmono _ hid, fun g hfg => List.mem_append_left _ (hg g hfg)⟩
  · intro row hrow hup
    have hpk := hv.prekey row hrow hup
    have hrow : row ∈ v₀.rows ++ newRows cfg wall draw n due :=
      hv₀.rows_prepared hp hinj hdraw ▸ hrow
    rcases List.mem_append.1 hrow with hrow | hrow
    · obtain ⟨h₁, h₂, h₃, -⟩ := h.unsent row (hsub.subset hrow) hup
      exact ⟨h₁, h₂, h₃, hpk⟩
    · exact ⟨fun p hp heq => hfresh row hrow (heq ▸ h.poolDrawn p hp),
        fun f hf heq => hfresh row hrow (heq ▸ (h.handedDrawn f hf).1),
        (isNew_of_mem hp.le hrow).retiredAt, hpk⟩

theorem Base.setPhase {phase : PrekeyPhase} (h : w.Base cfg)
    (hphase : PhaseOk cfg { w with phase := phase }) : Base cfg { w with phase := phase } :=
  ⟨h.rowIds, h.rowsDrawn, h.generation, h.poolIds, h.poolDrawn, h.poolGeneration, h.flight,
    h.handedDrawn, h.handedOnce, h.poolNotHanded,
    fun r hr hup => let hu := h.unsent r hr hup; ⟨hu.pool, hu.handed, hu.retiredAt, hu.prekey⟩,
    h.unsentLastResort, hphase⟩

theorem injOn_of_drawnIds (hnodup : (cfg.drawnIds draw).Nodup)
    (hnew : ∀ id ∈ cfg.drawnIds draw, id ∉ w.drawn) :
    Set.InjOn (fun i => (draw i).id) (Set.Iic cfg.options.poolTarget) ∧
      ∀ i ≤ cfg.options.poolTarget, (draw i).id ∉ w.drawn := by
  have hmem : ∀ i ≤ cfg.options.poolTarget, i ∈ List.range (cfg.options.poolTarget + 1) :=
    fun i hi => List.mem_range.2 (by omega)
  refine ⟨fun i hi j hj hij => ?_, fun i hi => hnew _ (List.mem_map.2 ⟨i, hmem i hi, rfl⟩)⟩
  exact List.inj_on_of_nodup_map hnodup (hmem i hi) (hmem j hj) hij

theorem prepare_keeps (h : w.Base cfg) {status : PrekeyStatus} (hphase : w.phase = .asked status)
    (hfresh : w.RandomFresh cfg (.prepare wall generation draw))
    (hstep : w.step cfg (.prepare wall generation draw) = some w') :
    w'.Base cfg ∧ (w.Held cfg → w'.Held cfg) := by
  obtain ⟨hne, hgen, hnodup, hnew⟩ := hfresh
  obtain ⟨hinj, hdraw⟩ := injOn_of_drawnIds hnodup hnew
  obtain ⟨v, due, r, hprep, hpending, hfirst, hrgen, hcases⟩ :=
    prepareRound_cases cfg w.vault status wall generation draw
      fun i hi row hrow heq => hdraw i hi (heq ▸ h.rowsDrawn row hrow)
  have hw' : w' = { w.prepared cfg v generation draw with phase := .uploading r } := by
    simp only [step, hphase, hprep] at hstep
    exact (Option.some.inj hstep).symm
  have hstatus : status.generation = (w.relayGeneration cfg).getD [] := by
    have := h.phase
    rw [PhaseOk, hphase] at this
    exact this
  have hother : w.relayGeneration cfg ≠ some generation := fun heq => hgen (h.poolGeneration _ heq)
  rw [hw']
  rcases hcases with ⟨-, hrep, hp⟩ | ⟨⟨hvgen, hsgen⟩, hrep, hp⟩
  · have hvg : v.generation = generation := hp.generation
    have hbase := h.prepared hp hinj hdraw (List.nil_sublist _)
      (by rw [hvg]; exact List.mem_append_right _ (List.mem_singleton_self _))
    obtain ⟨hnodup, hmem⟩ := hbase.vaulted.pending
    refine ⟨hbase.setPhase ⟨hrgen, ?_, ?_, ?_, ?_⟩, fun _ => ⟨fun hc => ?_, fun _ f hf hfg => ?_⟩⟩
    · rw [hrgen, hvg]
      exact hne
    · rw [hrep, hfirst]
      change w.relayGeneration cfg ≠ some v.generation
      rwa [hvg]
    · rw [hpending]
      exact hnodup
    · rw [hpending]
      exact hmem
    · exact absurd (hvg ▸ hc.2) hother
    · have hf' : f ∈ w.handed := h.flight.subset hf
      exact absurd ((h.handedDrawn f hf').2 _ (hvg ▸ hfg)) hgen
  · have hvg : v.generation = w.vault.generation := hp.generation
    have hmem : v.generation ∈ w.generations ++ [generation] := by
      rw [hvg]
      exact List.mem_append_left _ (h.generation hvgen)
    have hbase := h.prepared hp hinj hdraw (List.Sublist.refl _) hmem
    obtain ⟨hnodup, hmem⟩ := hbase.vaulted.pending
    have hrelay := relayGeneration_of_getD hvgen (hstatus.symm.trans hsgen)
    have hkeep : ∀ row ∈ w.vault.rows, row ∈ v.rows := by
      intro row hrow
      rw [hp.rows hinj fun i hi row hrow heq => hdraw i hi (heq ▸ h.rowsDrawn row hrow)]
      exact List.mem_append_left _ hrow
    refine ⟨hbase.setPhase ⟨hrgen, ?_, ?_, ?_, ?_⟩, fun hh => ⟨fun hc p hp => ?_, fun _ f hf hfg => ?_⟩⟩
    · rw [hrgen, hvg]
      exact hvgen
    · rw [hrep]
      change w.relayGeneration cfg = some v.generation
      rwa [hvg]
    · rw [hpending]
      exact hnodup
    · rw [hpending]
      exact hmem
    · obtain ⟨row, hrow, hrest⟩ := hh.pool ⟨hvgen, hrelay⟩ p hp
      exact ⟨row, hkeep row hrow, hrest⟩
    · obtain ⟨row, hrow, hrest⟩ := hh.flight hvgen f hf (hvg ▸ hfg)
      exact ⟨row, hkeep row hrow, hrest⟩

end Prepare

/-! ## Uploads -/

/-- A put changes nothing on the relay, or it is well formed and accepted as a whole. -/
theorem handlePut_cases (cfg : PrekeySetup) (s : RelayStore) (m : PrekeyPut) (now : Time) :
    cfg.handlePut s m now = (false, s) ∨
      ∃ s', cfg.handlePut s m now = (true, s') ∧ m.wellFormed = true ∧
        RelayStore.PutEffect cfg.mailboxId m.replace m.generation m.prekeys now s s' := by
  have hput := RelayStore.putPrekeys_cases s cfg.mailboxId m.replace m.generation m.prekeys now
    cfg.maxPrekeys
  unfold PrekeySetup.handlePut
  split_ifs with hwf
  · generalize s.putPrekeys cfg.mailboxId m.replace m.generation m.prekeys now cfg.maxPrekeys = r
      at hput
    obtain ⟨res, s'⟩ := r
    rcases hput with ⟨rfl, heff⟩ | ⟨hne, rfl⟩
    · exact .inr ⟨s', rfl, hwf, heff⟩
    · left
      cases res <;> first | rfl | exact absurd rfl hne
  · exact .inl rfl

section Upload

variable {r : UploadRound} {now : Time} {s : RelayStore}

def confirmed (w : PrekeyWorld) (r : UploadRound) (s : RelayStore) : PrekeyWorld :=
  { w with
    store := s
    vault := (PrekeySetup.batch r).foldl (PrekeySetup.confirm r.wall) w.vault
    phase := .uploading { r with pending := r.pending.drop maxPrekeysPerPut, first := false } }

structure Uploading (cfg : PrekeySetup) (w : PrekeyWorld) (r : UploadRound) : Prop
    extends Sending (w.relayGeneration cfg) w.vault r where
  base : w.Base cfg

theorem Base.uploading (h : w.Base cfg) (hphase : w.phase = .uploading r) : Uploading cfg w r := by
  have hp := h.phase
  rw [PhaseOk, hphase] at hp
  exact ⟨hp, h⟩

theorem mem_batch {p : Prekey} (hp : p ∈ PrekeySetup.batch r) : p ∈ r.pending :=
  List.mem_of_mem_take hp

theorem confirmed_rows (w : PrekeyWorld) (r : UploadRound) (s : RelayStore) :
    (w.confirmed r s).vault.rows = w.vault.rows.map fun row =>
      (PrekeySetup.batch r).foldl (PrekeySetup.confirmRow r.wall) row := by
  simp [confirmed, PrekeySetup.foldl_confirm]

theorem confirmed_generation (w : PrekeyWorld) (r : UploadRound) (s : RelayStore) :
    (w.confirmed r s).vault.generation = w.vault.generation := by
  simp [confirmed, PrekeySetup.foldl_confirm]

/-- Where a row of the vault comes from. -/
theorem exists_confirmed {row : VaultRow} (h : row ∈ (w.confirmed r s).vault.rows) :
    ∃ row₀ ∈ w.vault.rows, PrekeySetup.Confirmed (PrekeySetup.batch r) row₀ row := by
  rw [confirmed_rows] at h
  obtain ⟨row₀, hmem, rfl⟩ := List.mem_map.1 h
  exact ⟨row₀, hmem, PrekeySetup.confirmed_foldl _ _ _⟩

theorem exists_confirmed_of_mem {row₀ : VaultRow} (h : row₀ ∈ w.vault.rows) :
    ∃ row ∈ (w.confirmed r s).vault.rows,
      PrekeySetup.Confirmed (PrekeySetup.batch r) row₀ row := by
  rw [confirmed_rows]
  exact ⟨_, List.mem_map_of_mem h, PrekeySetup.confirmed_foldl _ _ _⟩

/-- A row that still waits waited before and was not in the batch. -/
theorem waits_before {row₀ row : VaultRow}
    (hc : PrekeySetup.Confirmed (PrekeySetup.batch r) row₀ row) (hup : row.uploaded = false) :
    row₀.uploaded = false ∧ ∀ p ∈ PrekeySetup.batch r, p.id ≠ row₀.id := by
  have := hc.uploaded.not.1 (by simp [hup])
  exact ⟨by simpa using (not_or.1 this).1, fun p hp hid => (not_or.1 this).2 ⟨p, hp, hid⟩⟩

theorem Vaulted.confirmed (h : Vaulted w.vault w.drawn) (r : UploadRound) (s : RelayStore) :
    Vaulted (w.confirmed r s).vault w.drawn := by
  refine ⟨?_, fun row hrow => ?_, fun row hrow hup => ?_, ?_⟩
  · have hids : (w.confirmed r s).vault.rows.map (·.id) = w.vault.rows.map (·.id) := by
      rw [confirmed_rows, List.map_map]
      exact List.map_congr_left fun row _ => (PrekeySetup.confirmed_foldl _ _ _).id
    rw [hids]
    exact h.ids
  · obtain ⟨row₀, hmem, hc⟩ := exists_confirmed hrow
    rw [hc.id]
    exact h.rowsDrawn row₀ hmem
  · obtain ⟨row₀, hmem, hc⟩ := exists_confirmed hrow
    rw [hc.prekey hup, hc.id, hc.lastResort]
    exact h.prekey row₀ hmem (waits_before hc hup).1
  · intro row hrow row' hrow' hup hup' hl hl'
    obtain ⟨row₀, hmem, hc⟩ := exists_confirmed hrow
    obtain ⟨row₀', hmem', hc'⟩ := exists_confirmed hrow'
    rw [hc.id, hc'.id]
    exact h.lastResort row₀ hmem row₀' hmem' (waits_before hc hup).1
      (waits_before hc' hup').1 (hc.lastResort ▸ hl) (hc'.lastResort ▸ hl')

/-- A row that waits is never retired by the upload of another: at most one of the last-resort prekeys
waits. -/
theorem Uploading.not_retired (h : Uploading cfg w r) {row₀ row : VaultRow}
    (hmem : row₀ ∈ w.vault.rows) (hup : row₀.uploaded = false)
    (hc : PrekeySetup.Confirmed (PrekeySetup.batch r) row₀ row) : row.retiredAt = none := by
  rcases hc.retiredAt with hret | ⟨hlast, p, hp, hpl, hne⟩
  · rw [hret]
    exact (h.base.unsent row₀ hmem hup).retiredAt
  · obtain ⟨row₁, hmem₁, hid₁, hlast₁, hup₁⟩ := h.rows p (mem_batch hp)
    have := h.base.unsentLastResort row₀ hmem row₁ hmem₁ hup hup₁ hlast (hlast₁.trans hpl)
    exact absurd (hid₁.symm.trans this.symm) hne

/-- A prekey that is still to go was not in the batch. -/
theorem Sending.not_mem_batch {known : Option Bytes} (h : Sending known w.vault r) {p : Prekey}
    (hp : p ∈ r.pending.drop maxPrekeysPerPut) : ∀ p' ∈ PrekeySetup.batch r, p'.id ≠ p.id := by
  have hnodup := h.nodup
  rw [← List.take_append_drop maxPrekeysPerPut r.pending, List.map_append,
    List.nodup_append] at hnodup
  intro p' hp'
  exact hnodup.2.2 _ (List.mem_map_of_mem hp') _ (List.mem_map_of_mem hp)

variable (heff : RelayStore.PutEffect cfg.mailboxId (r.replace && r.first) r.generation
  ((PrekeySetup.batch r).map Prekey.entry) now w.store s)
include heff

/-- Where a prekey of the pool comes from. -/
theorem mem_pool_of_put {q : PrekeyRow} (hq : q ∈ (w.confirmed r s).pool cfg) :
    (r.replace && r.first) = false ∧ q ∈ w.pool cfg ∨
      ∃ p ∈ PrekeySetup.batch r, q.id = p.id ∧ q.lastResort = p.lastResort := by
  rcases List.mem_append.1 (heff.sublist.subset hq) with hq | hq
  · split_ifs at hq with hrep
    · simp at hq
    · exact .inl ⟨by simpa using hrep, hq⟩
  · obtain ⟨e, he, rfl⟩ := List.mem_map.1 hq
    obtain ⟨p, hp, rfl⟩ := List.mem_map.1 he
    exact .inr ⟨p, hp, rfl, rfl⟩

/-- An accepted batch of different prekeys leaves different ones. -/
theorem nodup_pool_of_put (hpool : ((w.pool cfg).map (·.id)).Nodup)
    (hbatch : ((PrekeySetup.batch r).map (·.id)).Nodup) :
    ((s.prekeysOf cfg.mailboxId).map (·.id)).Nodup := by
  refine List.Nodup.sublist (heff.sublist.map _) ?_
  have hids : (((PrekeySetup.batch r).map Prekey.entry).map
      (RelayStore.entryRow cfg.mailboxId now)).map (·.id) = (PrekeySetup.batch r).map (·.id) := by
    simp [RelayStore.entryRow, Prekey.entry, Function.comp_def]
  rw [List.map_append, hids]
  split_ifs with hrep
  · simpa using hbatch
  · refine hpool.append hbatch fun id hid hid' => ?_
    obtain ⟨q, hq, rfl⟩ := List.mem_map.1 hid
    obtain ⟨p, hp, heq⟩ := List.mem_map.1 hid'
    exact heff.fresh (by simpa using hrep) p.entry (List.mem_map_of_mem hp) q hq heq.symm

theorem Sending.confirmed (h : Sending (w.relayGeneration cfg) w.vault r) :
    Sending ((w.confirmed r s).relayGeneration cfg) (w.confirmed r s).vault
      { r with pending := r.pending.drop maxPrekeysPerPut, first := false } := by
  have hgen := confirmed_generation w r s
  refine ⟨h.generation.trans hgen.symm, h.nonempty, ?_, ?_, fun p hp => ?_⟩
  · simp only [Bool.and_false, Bool.false_eq_true, if_false]
    rw [hgen, ← h.generation]
    exact heff.generation
  · exact h.nodup.sublist ((List.drop_sublist _ _).map _)
  · obtain ⟨row₀, hmem, hid, hlast, hup⟩ := h.rows p (List.mem_of_mem_drop hp)
    obtain ⟨row, hrow, hc⟩ := exists_confirmed_of_mem (r := r) (s := s) hmem
    refine ⟨row, hrow, hc.id.trans hid, hc.lastResort.trans hlast, ?_⟩
    by_contra hup'
    rcases hc.uploaded.1 (by simpa using hup') with hbad | ⟨p', hp', hid'⟩
    · simp [hup] at hbad
    · exact h.not_mem_batch hp p' hp' (hid'.trans hid)

theorem Uploading.confirmed_base (h : Uploading cfg w r) : (w.confirmed r s).Base cfg := by
  have hgen := confirmed_generation w r s
  have hrelay : (w.confirmed r s).relayGeneration cfg = some w.vault.generation := by
    rw [← h.generation]
    exact heff.generation
  have hne : w.vault.generation ≠ [] := h.generation ▸ h.nonempty
  have hv := h.base.vaulted.confirmed r s
  have hbatch : ∀ p ∈ PrekeySetup.batch r, ∃ row ∈ w.vault.rows,
      row.id = p.id ∧ row.lastResort = p.lastResort ∧ row.uploaded = false :=
    fun p hp => h.rows p (mem_batch hp)
  have hnodup : ((PrekeySetup.batch r).map (·.id)).Nodup :=
    h.nodup.sublist ((List.take_sublist _ _).map _)
  refine ⟨hv.ids, hv.rowsDrawn, fun _ => ?_, nodup_pool_of_put heff h.base.poolIds hnodup, ?_, ?_,
    h.base.flight, h.base.handedDrawn, h.base.handedOnce, ?_, ?_, hv.lastResort, ?_⟩
  · rw [hgen]
    exact h.base.generation hne
  · intro q hq
    rcases mem_pool_of_put heff hq with ⟨-, hq⟩ | ⟨p, hp, hid, -⟩
    · exact h.base.poolDrawn q hq
    · obtain ⟨row, hrow, hrid, -⟩ := hbatch p hp
      rw [hid, ← hrid]
      exact h.base.rowsDrawn row hrow
  · intro g hg
    rw [← Option.some.inj (hrelay.symm.trans hg)]
    exact h.base.generation hne
  · intro q hq f hf
    rcases mem_pool_of_put heff hq with ⟨-, hq⟩ | ⟨p, hp, hid, -⟩
    · exact h.base.poolNotHanded q hq f hf
    · obtain ⟨row, hrow, hrid, -, hup⟩ := hbatch p hp
      intro _ heq
      exact (h.base.unsent row hrow hup).handed f hf (heq.trans (hid.trans hrid.symm))
  · intro row hrow hup
    obtain ⟨row₀, hmem, hc⟩ := exists_confirmed hrow
    obtain ⟨hup₀, hnot⟩ := waits_before hc hup
    have hu := h.base.unsent row₀ hmem hup₀
    refine ⟨fun q hq => ?_, ?_, h.not_retired hmem hup₀ hc, hv.prekey row hrow hup⟩
    · rw [hc.id]
      rcases mem_pool_of_put heff hq with ⟨-, hq⟩ | ⟨p, hp, hid, -⟩
      · exact hu.pool q hq
      · rw [hid]
        exact hnot p hp
    · rw [hc.id]
      exact hu.handed
  · exact h.toSending.confirmed heff

theorem Uploading.confirmed_held (h : Uploading cfg w r) (hh : w.Held cfg) :
    (w.confirmed r s).Held cfg := by
  have hgen := confirmed_generation w r s
  have hne : w.vault.generation ≠ [] := h.generation ▸ h.nonempty
  refine ⟨fun _ q hq => ?_, fun _ f hf hfg => ?_⟩
  · rcases mem_pool_of_put heff hq with ⟨hrep, hq'⟩ | ⟨p, hp, hid, hlast⟩
    · have hrelay := h.relay
      rw [hrep] at hrelay
      obtain ⟨row₀, hmem, hid, hlast, hup, hret⟩ := hh.pool ⟨hne, hrelay⟩ q hq'
      obtain ⟨row, hrow, hc⟩ := exists_confirmed_of_mem (r := r) (s := s) hmem
      refine ⟨row, hrow, hc.id.trans hid, hc.lastResort.trans hlast, hc.uploaded.2 (.inl hup), ?_⟩
      -- A last-resort prekey that stayed was not replaced, so none was uploaded.
      rcases hc.retiredAt with hret' | ⟨hl, p, hp, hpl, -⟩
      · rw [hret', hret]
      · rcases heff.lastResort q hq (hlast ▸ hl) with ⟨e, he, -, hqe⟩ | hnone
        · exact absurd hqe (heff.fresh hrep e he q hq')
        · have : p.entry.lastResort = false := hnone _ (List.mem_map_of_mem hp)
          simp [Prekey.entry, hpl] at this
    · obtain ⟨row₀, hmem, hrid, hrlast, hup⟩ := h.rows p (mem_batch hp)
      obtain ⟨row, hrow, hc⟩ := exists_confirmed_of_mem (r := r) (s := s) hmem
      exact ⟨row, hrow, hc.id.trans (hrid.trans hid.symm), hc.lastResort.trans (hrlast.trans hlast.symm),
        hc.uploaded.2 (.inr ⟨p, hp, hrid.symm⟩), h.not_retired hmem hup hc⟩
  · rw [hgen] at hfg
    obtain ⟨row₀, hmem, hid, hlast⟩ := hh.flight hne f hf hfg
    obtain ⟨row, hrow, hc⟩ := exists_confirmed_of_mem (r := r) (s := s) hmem
    exact ⟨row, hrow, hc.id.trans hid, hc.lastResort.trans hlast⟩

omit heff in
theorem Uploading.giveUp (h : Uploading cfg w r) :
    Base cfg { w with phase := .uploading { r with pending := [] } } :=
  h.base.setPhase ⟨h.generation, h.nonempty, h.relay, by simp, by simp⟩

omit heff in
theorem upload_keeps (h : w.Base cfg) (hphase : w.phase = .uploading r) (now : Time) :
    (w.upload cfg r now .delivered).Base cfg ∧
      (w.Held cfg → (w.upload cfg r now .delivered).Held cfg) := by
  have hu := h.uploading hphase
  unfold upload
  rcases handlePut_cases cfg w.store (PrekeySetup.putMessage r) now with
    heq | ⟨s, heq, -, heff⟩
  · simp only [heq]
    exact ⟨hu.giveUp, fun hh => ⟨hh.pool, hh.flight⟩⟩
  · simp only [heq]
    exact ⟨hu.confirmed_base heff, fun hh => hu.confirmed_held heff hh⟩

end Upload

end PrekeyWorld

end PqSuite
