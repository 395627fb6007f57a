import Mathlib.Data.List.Perm.Subperm
import PqSuite.Server.FileQuota

/-!
# Uploads to the file server

The receive loop of `handle_upload` registers a transfer when each chunk of its header has arrived once;
whatever ends the loop before that is undone. Between two messages of the connection the others and the
cleanup thread do what they like. A server that is stopped meanwhile is not part of this: what it finds
when it starts again is counted by `restoreTransfers`.
-/

namespace PqSuite.FileProtocol

variable {h : FileHeader}

end PqSuite.FileProtocol

namespace PqSuite.FileServer

open FileProtocol

/-! ## The messages of an upload -/

/-- What the connection of an upload reads after the header, and how the file of a chunk is written. -/
inductive UploadMessage where
  | chunk (payload : Bytes) (result : WriteResult)
  | done (now : Time)
  | other
  | gone

def chunkMessages (cs : List (Bytes × FileChunk)) : List UploadMessage := cs.map fun c => .chunk c.1 .ok

/-- The messages bring each chunk of the file once and at its exact size, all of them are written, and the
sender is done. -/
def Whole (header : FileHeader) (ms : List UploadMessage) : Prop :=
  ∃ (cs : List (Bytes × FileChunk)) (now : Time), ms = chunkMessages cs ++ [.done now] ∧
    (∀ c ∈ cs, deserializeFileChunk c.1 = some c.2 ∧
      c.2.data.length = expectedChunkPlaintextSize header c.2.chunkIndex.toNat + aeadTagSize) ∧
    (cs.map (·.2.chunkIndex.toNat)).Perm (List.range header.totalChunks.toNat)

/-- What the receive loop knows after messages that it took. -/
structure Received (header : FileHeader) (received : List ℕ) (cs : List (Bytes × FileChunk)) : Prop where
  decoded : ∀ c ∈ cs, deserializeFileChunk c.1 = some c.2 ∧
    c.2.data.length = expectedChunkPlaintextSize header c.2.chunkIndex.toNat + aeadTagSize
  indices : (cs.map (·.2.chunkIndex.toNat)).Perm received
  nodup : received.Nodup
  bound : ∀ index ∈ received, index < header.totalChunks.toNat

theorem Received.nil (header : FileHeader) : Received header [] [] :=
  ⟨fun _ hc => absurd hc List.not_mem_nil, .nil, List.nodup_nil, fun _ hi => absurd hi List.not_mem_nil⟩

section

variable {header : FileHeader} {received : List ℕ} {cs : List (Bytes × FileChunk)}

theorem Received.chunk (h : Received header received cs) {payload : Bytes} {chunk : FileChunk}
    (hchunk : deserializeFileChunk payload = some chunk)
    (hlt : chunk.chunkIndex.toNat < header.totalChunks.toNat) (hnew : chunk.chunkIndex.toNat ∉ received)
    (hsize : chunk.data.length = expectedChunkPlaintextSize header chunk.chunkIndex.toNat + aeadTagSize) :
    Received header (chunk.chunkIndex.toNat :: received) (cs ++ [(payload, chunk)]) where
  decoded c hc := by
    rcases List.mem_append.1 hc with hold | hlast
    · exact h.decoded c hold
    · rw [List.mem_singleton.1 hlast]
      exact ⟨hchunk, hsize⟩
  indices := by
    rw [List.map_append, List.map_singleton]
    exact (List.perm_append_singleton _ _).trans (h.indices.cons _)
  nodup := List.nodup_cons.2 ⟨hnew, h.nodup⟩
  bound index hindex := by
    rcases List.mem_cons.1 hindex with rfl | hold
    · exact hlt
    · exact h.bound index hold

end

/-! ## A connection among others -/

def UploadMessage.event {n : ℕ} (i : Fin n) : UploadMessage → Event n
  | chunk payload result => .uploadChunk i payload result
  | done now => .uploadDone i now
  | other => .unexpected i
  | gone => .hangUp i

variable {n quota : ℕ} {w w' : World n} {i : Fin n} {id bytes : Bytes} {header : FileHeader}

/-- The server runs on from `w` to `w'`: the connection `i` does what is in `own`, and the others and the
cleanup thread anything in between. -/
def World.Runs (quota : ℕ) (i : Fin n) (w : World n) (own : List (Event n)) (w' : World n) : Prop :=
  ∃ es : List (Event n), es.foldlM (World.after quota) w = some w' ∧ (∀ e ∈ es, e.isRestart = false) ∧
    es.filter (·.conn = some i) = own

theorem conns_after {e : Event n} (hafter : w.after quota e = some w') (hrestart : e.isRestart = false)
    (hother : e.conn ≠ some i) : w'.conns i = w.conns i := by
  obtain ⟨⟨v, replies⟩, hnext, rfl⟩ := Option.map_eq_some_iff.1 hafter
  exact conns_next hnext hrestart hother

namespace World.Runs

theorem conns_eq (h : w.Runs quota i [] w') : w'.conns i = w.conns i := by
  obtain ⟨es, hrun, hrestart, hown⟩ := h
  induction es generalizing w with
  | nil => rw [Option.some.inj hrun]
  | cons e es ih =>
    rw [List.foldlM_cons] at hrun
    obtain ⟨v, hafter, hrun⟩ := Option.bind_eq_some_iff.1 hrun
    rw [List.filter_eq_nil_iff] at hown
    rw [ih hrun (fun e he => hrestart e (List.mem_cons_of_mem _ he))
      (List.filter_eq_nil_iff.2 fun e he => hown e (List.mem_cons_of_mem _ he))]
    refine conns_after hafter (hrestart e List.mem_cons_self) fun hconn => ?_
    exact hown e List.mem_cons_self (decide_eq_true hconn)

/-- Up to its next step, that step, and what comes after it. -/
theorem uncons {e : Event n} {own : List (Event n)} (h : w.Runs quota i (e :: own) w') :
    ∃ v v', w.Runs quota i [] v ∧ v.conns i = w.conns i ∧ v.after quota e = some v' ∧
      v'.Runs quota i own w' := by
  obtain ⟨es, hrun, hrestart, hown⟩ := h
  obtain ⟨before, rest, rfl, hbefore, -, hrest⟩ := List.filter_eq_cons_iff.1 hown
  rw [List.foldlM_append] at hrun
  obtain ⟨v, hfirst, hrun⟩ := Option.bind_eq_some_iff.1 hrun
  rw [List.foldlM_cons] at hrun
  obtain ⟨v', hafter, hrun⟩ := Option.bind_eq_some_iff.1 hrun
  have hquiet : w.Runs quota i [] v :=
    ⟨before, hfirst, fun e he => hrestart e (List.mem_append_left _ he), List.filter_eq_nil_iff.2 hbefore⟩
  exact ⟨v, v', hquiet, hquiet.conns_eq, hafter, rest, hrun,
    fun e he => hrestart e (List.mem_append_right _ (List.mem_cons_of_mem _ he)), hrest⟩

theorem reachable {own : List (Event n)} (h : w.Runs quota i own w')
    (hreach : Reach.Reachable World.Init (World.Step quota) w) :
    Reach.Reachable World.Init (World.Step quota) w' := by
  obtain ⟨es, hrun, -, -⟩ := h
  exact Reach.reachable_foldlM (fun _ _ _ => step_after) hreach es hrun

end World.Runs

/-! ## One message -/

section

variable {received : List ℕ} {cs : List (Bytes × FileChunk)} {m : UploadMessage}

/-- The connection has ended its upload: it undoes it, or it registered it. -/
def Conn.Ended (header : FileHeader) (id bytes : Bytes) (c : Conn) : Prop :=
  c = .aborting (some id) (storageCost header bytes.length) ∨ c = .idle

inductive Reads (w : World n) (i : Fin n) (id : Bytes) (header : FileHeader) (bytes : Bytes)
    (cs : List (Bytes × FileChunk)) (m : UploadMessage) (w' : World n) : Prop
  | more (c : Bytes × FileChunk) (received : List ℕ) (hm : m = .chunk c.1 .ok)
      (hconn : w'.conns i = .receiving id header bytes received)
      (hreceived : Received header received (cs ++ [c])) (hrows : w'.transfers = w.transfers)
  | fails (hconn : w'.conns i = .aborting (some id) (storageCost header bytes.length))
      (hrows : w'.transfers = w.transfers) (hpart : ¬Whole header (chunkMessages cs ++ [m]))
  | registers (now : Time) (hwhole : Whole header (chunkMessages cs ++ [m])) (hconn : w'.conns i = .idle)
      (hrow : ⟨id, header, now, storageCost header bytes.length, false⟩ ∈ w'.transfers)

end

/-! ## Undoing -/

namespace World

def Gone (w : World n) (id : Bytes) : Prop := ¬w.OnDisk id ∧ ∀ t ∈ w.transfers, t.id ≠ id

theorem Owned.unregistered (h : w.Owned) (hi : (w.conns i).dir = some id) :
    ∀ t ∈ w.transfers, t.id ≠ id := by
  intro t ht hid
  cases h.exclusive .registry (.conn i) id ⟨t, ht, hid⟩ hi

theorem unlinks_run {files : List FileName} (hi : w.conns i = .removing id)
    (hrun : w.Runs quota i (files.map (.unlink i)) w') : w'.conns i = .removing id := by
  induction files generalizing w with
  | nil => exact hrun.conns_eq.trans hi
  | cons file files ih =>
    obtain ⟨v, v', -, hsame, hafter, hrest⟩ := hrun.uncons
    rw [hi] at hsame
    simp only [World.after, World.next, hsame, World.silent, Option.map_some, Option.some.injEq] at hafter
    subst hafter
    refine ih ?_ hrest
    exact hsame

/-- The steps that undo an upload: the reservation goes, then the files, then the directory. -/
theorem undone {reserve : ℕ} {files : List FileName} (hreach : Reach.Reachable Init (Step quota) w)
    (hi : w.conns i = .aborting (some id) reserve)
    (hrun : w.Runs quota i (.abort i :: files.map (.unlink i)) w') :
    ∃ w'', w'.after quota (.removed i true) = some w'' ∧ w''.conns i = .idle ∧ w''.Gone id ∧
      w''.reserved = w''.registeredBytes + w''.uploadBytes := by
  have hremoving : w'.conns i = .removing id := by
    obtain ⟨v, v', -, hsame, hafter, hrest⟩ := hrun.uncons
    rw [hi] at hsame
    simp only [World.after, World.next, hsame, World.silent, Option.map_some, Option.some.injEq] at hafter
    subst hafter
    exact unlinks_run setConn_conns_self hrest
  have hafter : w'.after quota (.removed i true) = some ((w'.removeDir id).setConn i .idle) := by
    simp only [World.after, World.next, hremoving]
    rfl
  have hreach' := hrun.reachable hreach
  refine ⟨_, hafter, setConn_conns_self, ⟨?_, ?_⟩, (accounted (hreach'.next (step_after hafter))).1.sum⟩
  · rintro ⟨d, hd, hname⟩
    exact of_decide_eq_true (List.mem_filter.1 hd).2 hname
  · exact (orderly hreach').owned.unregistered (by rw [hremoving]; rfl)

end World

end PqSuite.FileServer
