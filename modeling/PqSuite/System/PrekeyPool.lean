import PqSuite.System.PrekeyUpkeep

/-!
# The pool on the relay and the private halves in the vault

`Base` is what the device and its relay know of each other while every answer arrives, and `Held` that
the private halves of what the relay hands out are in the vault. Takes and envelopes keep both.
-/

namespace PqSuite

open Relay

namespace PrekeyWorld

def pool (cfg : PrekeySetup) (w : PrekeyWorld) : List PrekeyRow := w.store.prekeysOf cfg.mailboxId

def relayGeneration (cfg : PrekeySetup) (w : PrekeyWorld) : Option Bytes :=
  w.store.generationOf cfg.mailboxId

/-- A relay that answers with a generation has that one. -/
theorem relayGeneration_of_getD {cfg : PrekeySetup} {w : PrekeyWorld} {generation : Bytes}
    (hne : generation ≠ []) (h : (w.relayGeneration cfg).getD [] = generation) :
    w.relayGeneration cfg = some generation := by
  cases hr : w.relayGeneration cfg with
  | none =>
    rw [hr] at h
    exact absurd h.symm hne
  | some g =>
    rw [hr] at h
    exact congrArg some h

/-- The one-time prekeys that were handed out, in order. -/
def handedOneTime (w : PrekeyWorld) : List Bytes :=
  (w.handed.filter (!·.row.lastResort)).map (·.row.id)

/-- Two rows that have different IDs unless both are last-resort prekeys, which are handed out again. -/
def Apart (p q : PrekeyRow) : Prop :=
  p.lastResort = false ∨ q.lastResort = false → p.id ≠ q.id

/-- A device without prekeys, as after an install, and whatever the relay has for its mailbox. -/
structure Init (cfg : PrekeySetup) (w : PrekeyWorld) : Prop where
  generation : w.vault.generation = []
  rows : w.vault.rows = []
  phase : w.phase = .idle
  flight : w.flight.Sublist w.handed
  poolIds : ((w.pool cfg).map (·.id)).Nodup
  poolDrawn : ∀ p ∈ w.pool cfg, p.id ∈ w.drawn
  poolGeneration : ∀ g, w.relayGeneration cfg = some g → g ∈ w.generations
  handedDrawn : ∀ f ∈ w.handed, f.row.id ∈ w.drawn ∧ ∀ g, f.generation = some g → g ∈ w.generations
  handedOnce : w.handed.Pairwise fun f g => Apart f.row g.row
  poolNotHanded : ∀ p ∈ w.pool cfg, ∀ f ∈ w.handed, Apart f.row p

/-! ## What holds while every answer arrives -/

/-- A row that waits for its upload: the relay has not seen it. -/
structure Unsent (cfg : PrekeySetup) (w : PrekeyWorld) (r : VaultRow) : Prop where
  pool : ∀ p ∈ w.pool cfg, p.id ≠ r.id
  handed : ∀ f ∈ w.handed, f.row.id ≠ r.id
  retiredAt : r.retiredAt = none
  prekey : ∃ p, r.prekey = some p ∧ p.id = r.id ∧ p.lastResort = r.lastResort

/-- A round that has prekeys to send: they are different and wait in the vault, and the relay has their
generation unless this upload is to replace the pool. -/
structure Sending (known : Option Bytes) (v : PrekeyVault) (r : UploadRound) : Prop where
  generation : r.generation = v.generation
  nonempty : r.generation ≠ []
  relay : if r.replace && r.first then known ≠ some v.generation else known = some v.generation
  nodup : (r.pending.map (·.id)).Nodup
  rows : ∀ p ∈ r.pending, ∃ row ∈ v.rows,
    row.id = p.id ∧ row.lastResort = p.lastResort ∧ row.uploaded = false

def PhaseOk (cfg : PrekeySetup) (w : PrekeyWorld) : Prop :=
  match w.phase with
  | .idle => True
  | .asked status => status.generation = (w.relayGeneration cfg).getD []
  | .uploading r => Sending (w.relayGeneration cfg) w.vault r

structure Base (cfg : PrekeySetup) (w : PrekeyWorld) : Prop where
  rowIds : (w.vault.rows.map (·.id)).Nodup
  rowsDrawn : ∀ r ∈ w.vault.rows, r.id ∈ w.drawn
  generation : w.vault.generation ≠ [] → w.vault.generation ∈ w.generations
  poolIds : ((w.pool cfg).map (·.id)).Nodup
  poolDrawn : ∀ p ∈ w.pool cfg, p.id ∈ w.drawn
  poolGeneration : ∀ g, w.relayGeneration cfg = some g → g ∈ w.generations
  flight : w.flight.Sublist w.handed
  handedDrawn : ∀ f ∈ w.handed, f.row.id ∈ w.drawn ∧ ∀ g, f.generation = some g → g ∈ w.generations
  handedOnce : w.handed.Pairwise fun f g => Apart f.row g.row
  poolNotHanded : ∀ p ∈ w.pool cfg, ∀ f ∈ w.handed, Apart f.row p
  unsent : ∀ r ∈ w.vault.rows, r.uploaded = false → w.Unsent cfg r
  unsentLastResort : ∀ r ∈ w.vault.rows, ∀ r' ∈ w.vault.rows, r.uploaded = false →
    r'.uploaded = false → r.lastResort = true → r'.lastResort = true → r.id = r'.id
  phase : w.PhaseOk cfg

/-- The device has a pool and the relay's pool is that one. -/
def Current (cfg : PrekeySetup) (w : PrekeyWorld) : Prop :=
  w.vault.generation ≠ [] ∧ w.relayGeneration cfg = some w.vault.generation

/-- The private halves of what the relay can hand out, and of what it handed out to envelopes still on
their way, are in the vault. -/
structure Held (cfg : PrekeySetup) (w : PrekeyWorld) : Prop where
  pool : w.Current cfg → ∀ p ∈ w.pool cfg, ∃ r ∈ w.vault.rows,
    r.id = p.id ∧ r.lastResort = p.lastResort ∧ r.uploaded = true ∧ r.retiredAt = none
  flight : w.vault.generation ≠ [] → ∀ f ∈ w.flight, f.generation = some w.vault.generation →
    ∃ r ∈ w.vault.rows, r.id = f.row.id ∧ r.lastResort = f.row.lastResort

variable {cfg : PrekeySetup} {w w' : PrekeyWorld}

theorem Init.base (h : w.Init cfg) : w.Base cfg where
  rowIds := by simp [h.rows]
  rowsDrawn := by simp [h.rows]
  generation hg := absurd h.generation hg
  poolIds := h.poolIds
  poolDrawn := h.poolDrawn
  poolGeneration := h.poolGeneration
  flight := h.flight
  handedDrawn := h.handedDrawn
  handedOnce := h.handedOnce
  poolNotHanded := h.poolNotHanded
  unsent := by simp [h.rows]
  unsentLastResort := by simp [h.rows]
  phase := by simp [PhaseOk, h.phase]

theorem Init.held (h : w.Init cfg) : w.Held cfg :=
  ⟨fun hc => absurd h.generation hc.1, fun hg => absurd h.generation hg⟩

/-! ## Takes -/

/-- What a take does: a prekey of the pool is handed out, or nothing is. -/
theorem take_cases (cfg : PrekeySetup) (w : PrekeyWorld) (tokenHash : Digest) (now : Time) :
    ∃ s, s.generationOf cfg.mailboxId = w.relayGeneration cfg ∧
      ((∃ row ∈ w.pool cfg, w.take cfg tokenHash now =
          { w with store := s, flight := w.flight ++ [⟨row, w.relayGeneration cfg⟩],
                   handed := w.handed ++ [⟨row, w.relayGeneration cfg⟩] } ∧
          s.prekeysOf cfg.mailboxId =
            if row.lastResort then w.pool cfg else (w.pool cfg).filter (·.id ≠ row.id)) ∨
        w.take cfg tokenHash now = { w with store := s } ∧
          s.prekeysOf cfg.mailboxId = w.pool cfg) := by
  have heff := RelayStore.takeEffect_takePrekey w.store cfg.mailboxId tokenHash now
    cfg.takesPerHour
  unfold take
  generalize w.store.takePrekey cfg.mailboxId tokenHash now cfg.takesPerHour = r at heff ⊢
  obtain ⟨res, s⟩ := r
  refine ⟨s, ?_⟩
  cases heff with
  | oneTime hmem hone hgen hpool =>
    exact ⟨hgen, .inl ⟨_, hmem, rfl, by rw [hone]; exact hpool⟩⟩
  | lastResort hmem hlast hgen hpool =>
    exact ⟨hgen, .inl ⟨_, hmem, rfl, by rw [hlast]; exact hpool⟩⟩
  | nothing hr hgen hpool =>
    refine ⟨hgen, .inr ⟨?_, hpool⟩⟩
    cases res with
    | ok row => exact absurd rfl (hr row)
    | rateLimited | empty => rfl

theorem eq_of_id_eq {α : Type} {f : α → Bytes} {l : List α} (h : (l.map f).Nodup) {a b : α}
    (ha : a ∈ l) (hb : b ∈ l) (hab : f a = f b) : a = b :=
  List.inj_on_of_nodup_map h ha hb hab

/-- Rows of the pool only go while nothing else changes. -/
theorem Base.of_store {s : RelayStore} (h : w.Base cfg)
    (hgen : s.generationOf cfg.mailboxId = w.relayGeneration cfg)
    (hpool : (s.prekeysOf cfg.mailboxId).Sublist (w.pool cfg)) :
    Base cfg { w with store := s } where
  rowIds := h.rowIds
  rowsDrawn := h.rowsDrawn
  generation := h.generation
  poolIds := h.poolIds.sublist (hpool.map _)
  poolDrawn p hp := h.poolDrawn p (hpool.subset hp)
  poolGeneration g hg := h.poolGeneration g (hgen ▸ hg)
  flight := h.flight
  handedDrawn := h.handedDrawn
  handedOnce := h.handedOnce
  poolNotHanded p hp := h.poolNotHanded p (hpool.subset hp)
  unsent r hr hup :=
    let hu := h.unsent r hr hup
    ⟨fun p hp => hu.pool p (hpool.subset hp), hu.handed, hu.retiredAt, hu.prekey⟩
  unsentLastResort := h.unsentLastResort
  phase := by
    have := h.phase
    unfold PhaseOk at this ⊢
    simp only [relayGeneration] at hgen this ⊢
    rw [hgen]
    exact this

theorem Base.take (h : w.Base cfg) (tokenHash : Digest) (now : Time) :
    (w.take cfg tokenHash now).Base cfg := by
  obtain ⟨s, hgen, ⟨row, hmem, htake, hpool⟩ | ⟨htake, hpool⟩⟩ := take_cases cfg w tokenHash now
  · have hsub : (s.prekeysOf cfg.mailboxId).Sublist (w.pool cfg) := by
      rw [hpool]
      split_ifs
      · exact List.Sublist.refl _
      · exact List.filter_sublist
    have hs := h.of_store hgen hsub
    -- No prekey that is left is the one-time prekey that was handed out.
    have hleft : ∀ p ∈ s.prekeysOf cfg.mailboxId, Apart row p := by
      intro p hp hone hid
      have hrow := eq_of_id_eq h.poolIds hmem (hsub.subset hp) hid
      rw [hpool] at hp
      split_ifs at hp with hlast
      · rw [← hrow, hlast] at hone
        simp at hone
      · exact absurd hid.symm (by simpa using (List.mem_filter.1 hp).2)
    rw [htake]
    refine ⟨hs.rowIds, hs.rowsDrawn, hs.generation, hs.poolIds, hs.poolDrawn, hs.poolGeneration,
      h.flight.append (List.Sublist.refl _), ?_, ?_, ?_, ?_, hs.unsentLastResort, hs.phase⟩
    · intro f hf
      rcases List.mem_append.1 hf with hf | hf
      · exact h.handedDrawn f hf
      · rw [List.mem_singleton.1 hf]
        exact ⟨h.poolDrawn row hmem, h.poolGeneration⟩
    · refine List.pairwise_append.2 ⟨h.handedOnce, List.pairwise_singleton _ _, fun f hf g hg => ?_⟩
      rw [List.mem_singleton.1 hg]
      exact h.poolNotHanded row hmem f hf
    · intro p hp f hf
      rcases List.mem_append.1 hf with hf | hf
      · exact hs.poolNotHanded p hp f hf
      · rw [List.mem_singleton.1 hf]
        exact hleft p hp
    · intro r hr hup
      have hu := hs.unsent r hr hup
      refine ⟨hu.pool, fun f hf => ?_, hu.retiredAt, hu.prekey⟩
      rcases List.mem_append.1 hf with hf | hf
      · exact hu.handed f hf
      · rw [List.mem_singleton.1 hf]
        exact (h.unsent r hr hup).pool row hmem
  · rw [htake]
    exact h.of_store hgen (hpool ▸ List.Sublist.refl _)

theorem Held.take (h : w.Held cfg) (tokenHash : Digest) (now : Time) :
    (w.take cfg tokenHash now).Held cfg := by
  obtain ⟨s, hgen, ⟨row, hmem, htake, hpool⟩ | ⟨htake, hpool⟩⟩ := take_cases cfg w tokenHash now
  · have hsub : s.prekeysOf cfg.mailboxId ⊆ w.pool cfg := by
      rw [hpool]
      split_ifs
      · exact List.Subset.refl _
      · exact List.filter_sublist.subset
    rw [htake]
    refine ⟨fun hc p hp => h.pool ⟨hc.1, hgen ▸ hc.2⟩ p (hsub hp), fun hg f hf hfg => ?_⟩
    rcases List.mem_append.1 hf with hf | hf
    · exact h.flight hg f hf hfg
    · rw [List.mem_singleton.1 hf] at hfg ⊢
      obtain ⟨r, hr, hid, hlast, -, -⟩ := h.pool ⟨hg, hfg⟩ row hmem
      exact ⟨r, hr, hid, hlast⟩
  · rw [htake]
    refine ⟨fun hc p hp => h.pool ⟨hc.1, hgen ▸ hc.2⟩ p ?_, h.flight⟩
    rw [← hpool]
    exact hp

/-! ## Envelopes -/

theorem Base.land (h : w.Base cfg) (id : Bytes) : (w.land id).Base cfg :=
  ⟨h.rowIds, h.rowsDrawn, h.generation, h.poolIds, h.poolDrawn, h.poolGeneration,
    List.eraseP_sublist.trans h.flight, h.handedDrawn, h.handedOnce, h.poolNotHanded,
    fun r hr hup => let hu := h.unsent r hr hup; ⟨hu.pool, hu.handed, hu.retiredAt, hu.prekey⟩,
    h.unsentLastResort, h.phase⟩

theorem Held.land (h : w.Held cfg) (id : Bytes) : (w.land id).Held cfg :=
  ⟨h.pool, fun hg f hf => h.flight hg f (List.eraseP_sublist.subset hf)⟩

/-- Rows of the vault only go, between two rounds. -/
theorem Base.of_rows (h : w.Base cfg) {rows : List VaultRow} (hrows : rows.Sublist w.vault.rows) :
    Base cfg { w with vault := { w.vault with rows := rows }, phase := .idle } :=
  ⟨h.rowIds.sublist (hrows.map _), fun r hr => h.rowsDrawn r (hrows.subset hr), h.generation,
    h.poolIds, h.poolDrawn, h.poolGeneration, h.flight, h.handedDrawn, h.handedOnce, h.poolNotHanded,
    fun r hr hup =>
      let hu := h.unsent r (hrows.subset hr) hup; ⟨hu.pool, hu.handed, hu.retiredAt, hu.prekey⟩,
    fun r hr r' hr' => h.unsentLastResort r (hrows.subset hr) r' (hrows.subset hr'), trivial⟩

theorem receive_cases (w : PrekeyWorld) (id : Bytes) (stored : Bool) :
    w.receive id stored = w ∨ w.receive id stored = w.land id ∨
      w.receive id stored = { w.land id with vault := w.vault.eraseOneTime id } := by
  unfold receive
  split_ifs
  · exact .inr (.inl rfl)
  · exact .inr (.inr rfl)
  · exact .inl rfl

theorem Base.receive (h : w.Base cfg) (hphase : w.phase = .idle) (id : Bytes) (stored : Bool) :
    (w.receive id stored).Base cfg := by
  rcases w.receive_cases id stored with heq | heq | heq
  · rwa [heq]
  · rw [heq]
    exact h.land id
  · rw [heq]
    have := (h.land id).of_rows
      (show (w.vault.eraseOneTime id).rows.Sublist _ from List.filter_sublist)
    rw [show (w.land id).vault = w.vault from rfl] at this
    rwa [← hphase] at this

/-- The envelope that used a one-time prekey up was the only one sealed to it, and the relay does not
have that prekey any more. -/
theorem Held.receive (hb : w.Base cfg) (h : w.Held cfg) {id : Bytes}
    (hflight : ∃ f ∈ w.flight, f.row.id = id) (stored : Bool) :
    (w.receive id stored).Held cfg := by
  rcases w.receive_cases id stored with heq | heq | heq
  · rwa [heq]
  · rw [heq]
    exact h.land id
  rw [heq]
  obtain ⟨f₀, hf₀, hid₀⟩ := hflight
  have hkeep : ∀ r ∈ w.vault.rows, (r.id = id → r.lastResort = true) →
      r ∈ (w.vault.eraseOneTime id).rows := by
    intro r hr hlast
    refine List.mem_filter.2 ⟨hr, ?_⟩
    simp only [not_and, Bool.not_eq_false, decide_eq_true_eq]
    exact hlast
  refine ⟨fun hc p hp => ?_, fun hg f hf hfg => ?_⟩
  · obtain ⟨r, hr, hid, hlast, hup, hret⟩ := h.pool hc p hp
    refine ⟨r, hkeep r hr fun hrid => ?_, hid, hlast, hup, hret⟩
    by_contra hone
    have hone : p.lastResort = false := by simpa [hlast] using hone
    exact hb.poolNotHanded p hp f₀ (hb.flight.subset hf₀) (.inr hone)
      (hid₀.trans (hrid.symm.trans hid))
  · have hmem : f ∈ w.flight := List.eraseP_sublist.subset hf
    obtain ⟨r, hr, hid, hlast⟩ := h.flight hg f hmem hfg
    refine ⟨r, hkeep r hr fun hrid => ?_, hid, hlast⟩
    by_contra hone
    have hone : f.row.lastResort = false := by simpa [hlast] using hone
    obtain ⟨f₁, l₁, l₂, -, hf₁, hflight, herase⟩ :=
      List.exists_of_eraseP hf₀ (p := fun f : HandedOut => decide (f.row.id = id)) (by simp [hid₀])
    have hf₁ : f₁.row.id = id := by simpa using hf₁
    have hpair := hb.handedOnce.sublist hb.flight
    rw [hflight, List.pairwise_append] at hpair
    obtain ⟨-, hcons, hcross⟩ := hpair
    have hfl : f ∈ l₁ ++ l₂ := herase ▸ hf
    rcases List.mem_append.1 hfl with hfl | hfl
    · exact hcross f hfl f₁ List.mem_cons_self (.inl hone) ((hid.symm.trans hrid).trans hf₁.symm)
    · exact (List.pairwise_cons.1 hcons).1 f hfl (.inr hone) (hf₁.trans (hrid.symm.trans hid))

end PrekeyWorld

end PqSuite
