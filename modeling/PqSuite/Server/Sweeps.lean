import PqSuite.Server.Uploads

/-!
# What a sweep removes from the files folder

The sweeper removes the bytes of the records that went with the sweep, and then every name in the folder
that is not of a file it knows, by a list it took before; sessions go on in between. As long as no ID is
begun that it is about to remove or does not know, it only removes bytes that have no record.
-/

namespace PqSuite.Relay

open Reach

variable {svc : Service} {w : World} {ending : FileEnding} {id : Bytes}

/-- The name that the sweeper removes on an event. -/
def World.sweeps (w : World) : Event → Option (FileEnding × Bytes)
  | .sweepNext =>
    match w.sweeper with
    | .removing (name :: _) => some name
    | _ => none
  | .sweepOrphan ending fileId =>
    match w.sweeper with
    | .orphans known => if fileId ∈ known then none else some (ending, fileId)
    | _ => none
  | _ => none

theorem World.disk_of_sweeps {e : Event} (h : w.sweeps e = some (ending, id)) :
    (w.step svc e).store.disk = w.store.disk.remove ending id := by
  cases e with
  | sweepNext =>
    simp only [World.sweeps] at h
    split at h
    · rename_i name rest hsweeper
      obtain rfl := Option.some.inj h
      simp only [World.step, World.sweepNext, hsweeper]
    · cases h
  | sweepOrphan ending' fileId =>
    simp only [World.sweeps] at h
    split at h
    · rename_i known hsweeper
      split_ifs at h with hknown
      obtain ⟨rfl, rfl⟩ := Prod.mk.inj (Option.some.inj h)
      simp only [World.step, hsweeper, if_neg hknown]
    · cases h
  | _ => cases h

/-- The ID that a session is about to make a record for. -/
def Session.beginning (ss : Session) : Option Bytes :=
  match ss.pending with
  | some (.beginFile _ m _) => some m.fileId
  | _ => none

/-- A record is made only for an ID that the sweep under way will not touch. -/
def World.SweepSafe (w : World) : Event → Prop
  | .resume i _ => ∀ ss ∈ w.sessions i, ∀ id ∈ ss.beginning, w.sweeper.Spares id
  | _ => True

instance (id : Bytes) : DecidablePred (Sweeper.Spares id)
  | .idle => isTrue trivial
  | .removing names => inferInstanceAs (Decidable (∀ name ∈ names, name.2 ≠ id))
  | .orphans known => inferInstanceAs (Decidable (id ∈ known))

instance (w : World) : DecidablePred w.SweepSafe
  | .resume i _ => inferInstanceAs (Decidable (∀ _ ∈ w.sessions i, _))
  | .connect .. | .message .. | .disconnect _ | .sweep _ | .draw .. | .poll _ | .sweepPrekeyTakes _
  | .sweepFiles _ | .sweepNext | .sweepOrphan .. | .removeMailbox _ | .createInvite .. | .disk _
  | .restart => isTrue trivial

/-- No two records have one ID, and nothing is being swept. -/
structure World.Rested (w : World) : Prop where
  ids : w.store.allFileIds.Nodup
  sweeper : w.sweeper = .idle

structure World.Swept (w : World) : Prop where
  ids : w.store.allFileIds.Nodup
  clear : w.sweeper.Clear w.store.stock

/-- Records go and the sweeper stays where it is. -/
theorem World.Swept.fewer (hw : w.Swept) {w' : World}
    (hids : w'.store.allFileIds.Sublist w.store.allFileIds) (hsweeper : w'.sweeper = w.sweeper) :
    w'.Swept := by
  refine ⟨hids.nodup hw.ids, ?_⟩
  rw [hsweeper]
  exact hw.clear.mono fun x hx => .inl (has_iff.2 (hids.subset (has_iff.1 hx)))

theorem World.Swept.same (hw : w.Swept) {w' : World} (hfiles : w'.store.files = w.store.files)
    (hsweeper : w'.sweeper = w.sweeper) : w'.Swept := by
  refine hw.fewer ?_ hsweeper
  rw [RelayStore.allFileIds, hfiles, RelayStore.allFileIds]

theorem World.Swept.sweepFiles (hw : w.Swept) (now : Time) :
    (w.step svc (.sweepFiles now)).Swept := by
  simp only [World.step]
  split
  · exact ⟨(ids_filter _ _).nodup hw.ids, fun name hname =>
      sweepFiles_gone (fun f hf g hg hid => List.inj_on_of_nodup_map hw.ids hf hg hid) hname⟩
  · exact hw

theorem World.Swept.sweepNext (hw : w.Swept) : w.sweepNext.Swept := by
  have hclear := hw.clear
  unfold World.sweepNext
  split
  · exact hw
  · exact ⟨hw.ids, fun f hf => List.mem_map_of_mem hf⟩
  · rename_i hsweeper
    rw [hsweeper] at hclear
    exact ⟨hw.ids, fun name hname => hclear name (List.mem_cons_of_mem _ hname)⟩
  · exact ⟨hw.ids, trivial⟩

theorem World.Swept.resume (hw : w.Swept) {i : ℕ} {now : Time} (hsafe : w.SweepSafe (.resume i now)) :
    (w.step svc (.resume i now)).Swept := by
  refine World.resume_rule (P := World.Swept) hw fun ss work hss hp => ?_
  rcases resume_ids svc now ss w.store w.rate work with hsub | ⟨mb, m, at', rfl, hnew, hids⟩
  · exact hw.fewer hsub rfl
  · -- the record is new, and the sweep under way knows of it
    have hspares := hsafe ss hss m.fileId (by rw [Session.beginning, hp]; rfl)
    refine ⟨?_, hw.clear.mono fun x hx => ?_⟩
    · show (RelayStore.allFileIds _).Nodup
      rw [World.apply, World.prune, hids]
      exact List.nodup_append.2 ⟨hw.ids, List.nodup_singleton _, fun x hx y hy hxy =>
        hnew (List.mem_singleton.1 hy ▸ hxy ▸ hx)⟩
    · have hx := has_iff.1 hx
      rw [World.apply, World.prune, hids, List.mem_append, List.mem_singleton] at hx
      rcases hx with hx | rfl
      · exact .inl (has_iff.2 hx)
      · exact .inr hspares

theorem World.Swept.step (hw : w.Swept) {e : Event} (hsafe : w.SweepSafe e) : (w.step svc e).Swept := by
  cases e with
  | message i now msg =>
    exact World.message_rule (P := World.Swept) hw fun ss _ _ =>
      hw.fewer (handleMessage_request svc now ss msg w.store w.rate).ids rfl
  | resume i now => exact hw.resume hsafe
  | sweepFiles now => exact hw.sweepFiles now
  | sweepNext => exact hw.sweepNext
  | sweepOrphan ending fileId =>
    simp only [World.step]
    split
    · split_ifs
      · exact hw
      · exact hw.same rfl rfl
    · exact hw
  | removeMailbox mb => exact hw.fewer (ids_filter _ _) rfl
  | createInvite hash now =>
    refine hw.same ?_ rfl
    simp only [World.step, RelayStore.addInvite]
    split <;> rfl
  | connect i peerIp challenge =>
    simp only [World.step]
    split
    · exact hw.same rfl rfl
    · exact hw
  | disconnect i =>
    simp only [World.step]
    split
    · exact hw
    · split_ifs
      · exact hw
      · exact hw.same rfl rfl
  | restart => exact ⟨hw.ids, trivial⟩
  | _ => exact hw.same rfl rfl

/-- Whatever sessions do in between, the sweeper removes no bytes of a file that has a record then. -/
theorem sweep_spares_records (hr : Reachable World.Rested (Under World.SweepSafe (World.Step svc)) w) :
    ∀ e ending id, w.sweeps e = some (ending, id) →
      (w.step svc e).store.disk = w.store.disk.remove ending id ∧ ¬w.store.stock.Has id := by
  have hw : w.Swept := by
    refine hr.invariant (fun w h => ⟨h.ids, h.sweeper ▸ trivial⟩) fun w e w' hw hs => ?_
    obtain ⟨hsafe, rfl⟩ := hs
    exact hw.step hsafe
  have hclear := hw.clear
  intro e ending id h
  refine ⟨World.disk_of_sweeps h, ?_⟩
  cases e with
  | sweepNext =>
    simp only [World.sweeps] at h
    split at h
    · rename_i name rest hsweeper
      obtain rfl := Option.some.inj h
      rw [hsweeper] at hclear
      exact hclear _ List.mem_cons_self
    · exact nomatch h
  | sweepOrphan ending' fileId =>
    simp only [World.sweeps] at h
    split at h
    · rename_i known hsweeper
      split_ifs at h with hknown
      obtain ⟨-, rfl⟩ := Prod.mk.inj (Option.some.inj h)
      rw [hsweeper] at hclear
      rintro ⟨f, hf, rfl⟩
      exact hknown (hclear f hf)
    · exact nomatch h
  | _ => exact nomatch h

/-- A file is uploaded, and then the sweeper begins and takes its list. -/
def sampleSwept : List Event := sampleUpload ++ [.sweepFiles 102, .sweepNext]

theorem sampleWorld_rested : sampleWorld.Rested := ⟨List.nodup_nil, rfl⟩

theorem sweep_spares_records_sample :
    (sampleSwept.foldl (World.step sampleService) sampleWorld).sweeps (.sweepOrphan .bin sampleFile) = none ∧
      (sampleSwept.foldl (World.step sampleService) sampleWorld).sweeps (.sweepOrphan .part sampleToken) =
        some (.part, sampleToken) ∧
      ¬(sampleSwept.foldl (World.step sampleService) sampleWorld).store.stock.Has sampleToken := by
  have hr : Reachable World.Rested (Under World.SweepSafe (World.Step sampleService))
      (sampleSwept.foldl (World.step sampleService) sampleWorld) :=
    reachable_foldl_under World.step_step (.start sampleWorld_rested) (by decide +kernel)
  have hsweeps : (sampleSwept.foldl (World.step sampleService) sampleWorld).sweeps
      (.sweepOrphan .part sampleToken) = some (.part, sampleToken) := by decide +kernel
  exact ⟨by decide +kernel, hsweeps, (sweep_spares_records hr _ _ _ hsweeps).2⟩

/-- The sweeper takes its list before a file is begun, and comes to the file's bytes after. -/
def sampleOverlooked : List Event := [.sweepFiles 99, .sweepNext] ++ sampleUpload

/-- The bytes of a file that has been uploaded go while its record stays. -/
theorem sweep_removes_recorded_file :
    ∃ w : World, Reachable World.Rested (World.Step sampleService) w ∧
      w.sweeps (.sweepOrphan .bin sampleFile) = some (.bin, sampleFile) ∧
      (∃ f ∈ w.store.files, f.id = sampleFile ∧ f.ready = true) ∧
      w.store.disk.stored sampleFile = some [7] ∧
      (w.step sampleService (.sweepOrphan .bin sampleFile)).store.disk.stored sampleFile = none :=
  ⟨sampleOverlooked.foldl (World.step sampleService) sampleWorld,
    reachable_foldl World.step_step (.start sampleWorld_rested) _, by decide +kernel, by decide +kernel,
    by decide +kernel, by decide +kernel⟩

end PqSuite.Relay
