import PqSuite.Server.FileRuns

/-!
# Downloads of the file server

One connection at a time downloads a transfer, and until it ends nobody else takes the transfer or its
directory away. A transfer goes when its receiver has been sent every chunk and confirms, or when its time
is over; a download that fails leaves it as it was.
-/

namespace PqSuite.FileServer

open FileProtocol

variable {n quota : ℕ} {w w' : World n} {e : Event n} {t : StoredTransfer} {line : List Reply}
  {i : Fin n}

/-- The registered transfer is still there after a step, with the mark of a download or without. -/
def World.Keeps (w : World n) (t : StoredTransfer) : Prop :=
  ∃ downloading, { t with downloading } ∈ w.transfers

def World.Confirms (w : World n) (e : Event n) (id : Bytes) : Prop :=
  ∃ i t, e = .finish i ∧ w.conns i = .confirmed t ∧ t.id = id

/-- Nobody touches the directory of a registered transfer. -/
theorem directory_effect (h : w.Orderly) (he : Effect quota w e w') (hrestart : e.isRestart = false)
    (ht : t ∈ w.transfers) {d : Directory} (hd : d ∈ w.disk) (hname : d.name = t.id) : d ∈ w'.disk := by
  have hregistry : w.Holds .registry d.name := ⟨t, ht, hname.symm⟩
  have hconn : ∀ {i : Fin n} {id : Bytes}, (w.conns i).dir = some id → d.name ≠ id := by
    rintro i _ hi rfl
    cases h.owned.exclusive .registry (.conn i) d.name hregistry hi
  have hcleaner : ∀ {id : Bytes}, id ∈ w.cleaner → d.name ≠ id := by
    rintro _ hid rfl
    cases h.owned.exclusive .registry .cleaner d.name hregistry hid
  cases he with
  | writes hid hsame hf => exact List.mem_map.2 ⟨d, hd, if_neg (hconn hid)⟩
  | makes hi hnew => exact List.mem_append_left _ hd
  | @removes e i dir gone hi =>
    have hdir : (w.conns i).dir = some dir := by rw [hi]; rfl
    cases gone with
    | false => exact hd
    | true => exact List.mem_filter.2 ⟨hd, decide_eq_true (hconn hdir)⟩
  | finishes hi =>
    unfold World.finish
    split <;> exact hd
  | cleanerWrites hdir => exact List.mem_map.2 ⟨d, hd, if_neg (hcleaner hdir)⟩
  | @cleans e dir rest gone hrest =>
    cases gone with
    | false => exact hd
    | true =>
      refine List.mem_filter.2 ⟨hd, decide_eq_true (hcleaner ?_)⟩
      rw [hrest]
      exact List.mem_cons_self
  | restarts => cases hrestart
  | _ => exact hd

/-- A receiver was sent the header of the directory and its first chunks, in order. -/
def Directory.Sent (d : Directory) (count : ℕ) (line : List Reply) : Prop :=
  ∃ (bytes : Bytes) (chunks : List Bytes), d.header = some bytes ∧
    (List.range count).map d.chunks = chunks.map some ∧
    line = .downloadHeader bytes :: chunks.mapIdx fun index data =>
      .downloadChunk (serializeFileChunk ⟨UInt32.ofNat index, data⟩)

theorem Directory.Sent.concat {d : Directory} {count : ℕ} {data : Bytes} (h : d.Sent count line)
    (hdata : d.chunks count = some data) :
    d.Sent (count + 1)
      (line ++ [.downloadChunk (serializeFileChunk ⟨UInt32.ofNat count, data⟩)]) := by
  obtain ⟨bytes, chunks, hheader, hchunks, rfl⟩ := h
  have hlength : chunks.length = count := by
    rw [← List.length_map (f := some), ← hchunks, List.length_map, List.length_range]
  refine ⟨bytes, chunks ++ [data], hheader, ?_, ?_⟩
  · rw [List.range_succ, List.map_append, hchunks, List.map_append, List.map_singleton, hdata]
    rfl
  · rw [List.mapIdx_concat, hlength, List.cons_append]

/-- The server, and what was sent on each connection since the last request there, as the other side notes
it down. -/
structure Watched (n : ℕ) where
  world : World n
  line : Fin n → List Reply := fun _ => []

def Event.isRequest : Event n → Bool
  | .uploadRequest .. | .downloadRequest .. => true
  | _ => false

namespace Watched

def next (quota : ℕ) (r : Watched n) (e : Event n) : Option (Watched n) :=
  (r.world.next quota e).map fun (w, replies) => ⟨w, fun i =>
    if e.conn = some i then (if e.isRequest then [] else r.line i) ++ replies else r.line i⟩

def Init (r : Watched n) : Prop := r.world.Init

def Step (quota : ℕ) (r : Watched n) (e : Event n) (r' : Watched n) : Prop := r.next quota e = some r'

/-- A receiver confirmed after it was sent the header, every chunk of the transfer as it is on disk, and
that this was all. -/
def Delivered (r : Watched n) (e : Event n) (id : Bytes) : Prop :=
  ∃ i t, e = .finish i ∧ r.world.conns i = .confirmed t ∧ t.id = id ∧
    ∃ d ∈ r.world.disk, d.name = id ∧ ∃ sent, d.Sent t.header.totalChunks.toNat sent ∧
      r.line i = sent ++ [.downloadDone]

end Watched

def Conn.Told (w : World n) (line : List Reply) : Conn → Prop
  | .sending _ false index => index = 0 ∧ line = []
  | .sending t true index => index ≤ t.header.totalChunks.toNat ∧
      ∃ d ∈ w.disk, d.name = t.id ∧ d.Sent index line
  | .awaiting t | .confirmed t => ∃ d ∈ w.disk, d.name = t.id ∧
      ∃ sent, d.Sent t.header.totalChunks.toNat sent ∧ line = sent ++ [.downloadDone]
  | _ => True

/-- The directories of a download are there as before. -/
theorem Conn.Told.mono {c : Conn} (h : c.Told w line)
    (hdisk : ∀ id, c.download = some id → ∀ d ∈ w.disk, d.name = id → d ∈ w'.disk) : c.Told w' line := by
  cases c with
  | sending t headerSent index =>
    cases headerSent with
    | false => exact h
    | true =>
      obtain ⟨hle, d, hd, hname, hsent⟩ := h
      exact ⟨hle, d, hdisk t.id rfl d hd hname, hname, hsent⟩
  | awaiting t | confirmed t =>
    obtain ⟨d, hd, hname, hsent⟩ := h
    exact ⟨d, hdisk t.id rfl d hd hname, hname, hsent⟩
  | _ => trivial

/-- A connection changes by its own steps only. -/
theorem conns_next {replies : List Reply} (hnext : w.next quota e = some (w', replies))
    (hrestart : e.isRestart = false) (hother : e.conn ≠ some i) : w'.conns i = w.conns i := by
  have hne : ∀ {v : World n} {j c}, e.conn = some j → (v.setConn j c).conns i = v.conns i :=
    fun hj => setConn_conns_of_ne fun heq => hother (heq ▸ hj)
  cases e with
  | restart now age left => cases hrestart
  | _ =>
    simp only [World.next, World.uploadRequest, World.makeDirectory, World.writeHeader, World.uploadChunk,
      World.uploadDone, World.downloadRequest, World.sendNext, World.finish, World.silent] at hnext
    repeat' split at hnext
    all_goals cases hnext
    all_goals first
      | rfl
      | exact hne rfl

theorem told_sendNext (h : w.Orderly) {headerSent : Bool} {index : ℕ}
    (htold : (Conn.sending t headerSent index).Told w line) :
    ((w.sendNext i t headerSent index).1.conns i).Told (w.sendNext i t headerSent index).1
      (line ++ (w.sendNext i t headerSent index).2) := by
  have hread : ∀ {α : Type} {f : Directory → Option α} {a : α}, (w.findDir t.id).bind f = some a →
      ∀ {d}, d ∈ w.disk → d.name = t.id → f d = some a := by
    intro α f a hread d hd hname
    obtain ⟨d', hfind, ha⟩ := Option.bind_eq_some_iff.1 hread
    obtain ⟨hd', hname'⟩ := Rows.lookup_eq_some hfind
    rwa [List.inj_on_of_nodup_map h.owned.names hd hd' (hname.trans hname'.symm)]
  unfold World.sendNext
  cases headerSent with
  | false =>
    obtain ⟨rfl, rfl⟩ := htold
    simp only [Bool.false_eq_true, not_false_eq_true, if_true]
    split
    · rw [setConn_conns_self]
      trivial
    · rename_i bytes hbytes
      obtain ⟨d, hfind, hheader⟩ := Option.bind_eq_some_iff.1 (Option.filter_eq_some_iff.1 hbytes).1
      obtain ⟨hd, hname⟩ := Rows.lookup_eq_some hfind
      rw [setConn_conns_self]
      exact ⟨Nat.zero_le _, d, hd, hname, bytes, [], hheader, rfl, rfl⟩
  | true =>
    obtain ⟨hle, d, hd, hname, hsent⟩ := htold
    simp only [not_true_eq_false, if_false]
    split_ifs with hlt
    · split
      · rw [setConn_conns_self]
        trivial
      · rename_i data hdata
        have hchunk := hread (Option.filter_eq_some_iff.1 hdata).1 hd hname
        rw [setConn_conns_self]
        exact ⟨hlt, d, hd, hname, hsent.concat hchunk⟩
    · obtain rfl := le_antisymm hle (not_lt.1 hlt)
      rw [setConn_conns_self]
      exact ⟨d, hd, hname, line, hsent, rfl⟩

/-- After every step of a connection's own it was sent what the server's answers say. -/
theorem told_own (h : w.Orderly) {replies : List Reply} (htold : (w.conns i).Told w line)
    (hnext : w.next quota e = some (w', replies)) (hown : e.conn = some i) :
    (w'.conns i).Told w' ((if e.isRequest then [] else line) ++ replies) := by
  cases e with
  | sendNext j =>
    obtain rfl : j = i := Option.some.inj hown
    simp only [World.next] at hnext
    split at hnext
    · rename_i t headerSent index hj
      rw [hj] at htold
      obtain ⟨rfl, rfl⟩ := Prod.mk.inj (Option.some.inj hnext)
      exact told_sendNext h htold
    · cases hnext
  | answer j ack =>
    obtain rfl : j = i := Option.some.inj hown
    simp only [World.next] at hnext
    split at hnext
    · rename_i t hj
      rw [hj] at htold
      obtain ⟨rfl, rfl⟩ := Prod.mk.inj (Option.some.inj hnext)
      rw [setConn_conns_self, List.append_nil]
      cases ack with
      | true => exact htold
      | false => trivial
    · cases hnext
  | downloadRequest j payload =>
    obtain rfl : j = i := Option.some.inj hown
    simp only [World.next, World.downloadRequest] at hnext
    split at hnext
    · rename_i hj
      repeat' split at hnext
      all_goals cases hnext
      all_goals first
        | (rw [hj]; trivial)
        | (rw [setConn_conns_self]; exact ⟨rfl, rfl⟩)
    · cases hnext
  | expire | cleanerUnlink | cleanerRemoved | restart => cases hown
  | _ =>
    obtain rfl := Option.some.inj hown
    simp only [World.next, World.uploadRequest, World.makeDirectory, World.writeHeader, World.uploadChunk,
      World.uploadDone, World.abort, World.finish, World.release, World.silent] at hnext
    repeat' split at hnext
    all_goals cases hnext
    all_goals first
      | (rw [setConn_conns_self]; trivial)
      | simp_all [Conn.Told, World.updateDir]

/-- Every download was sent the beginning of its directory. -/
structure Watched.Inv (r : Watched n) : Prop where
  orderly : r.world.Orderly
  told : ∀ i, (r.world.conns i).Told r.world (r.line i)

theorem Watched.Inv.init {r : Watched n} (h : r.Init) : r.Inv := by
  refine ⟨.init h, fun i => ?_⟩
  obtain ⟨disk, now, age, left, -, -, hr⟩ := h
  rw [hr]
  trivial

theorem Watched.Inv.step {r r' : Watched n} (h : r.Inv) (hstep : Watched.Step quota r e r') : r'.Inv := by
  obtain ⟨⟨w', replies⟩, hnext, rfl⟩ := Option.map_eq_some_iff.1 hstep
  have heffect := effect_next hnext
  refine ⟨h.orderly.effect heffect, fun i => ?_⟩
  by_cases hown : e.conn = some i
  · simp only [if_pos hown]
    exact told_own h.orderly (h.told i) hnext hown
  · simp only [if_neg hown]
    cases hrestart : e.isRestart with
    | true =>
      cases e with
      | restart now age left =>
        obtain ⟨rfl, -⟩ := Prod.mk.inj (Option.some.inj hnext)
        trivial
      | _ => cases hrestart
    | false =>
      rw [conns_next hnext hrestart hown]
      refine (h.told i).mono fun id hi d hd hname => ?_
      obtain ⟨t, ht, rfl, -⟩ := h.orderly.downloads.claimed i id hi
      exact directory_effect h.orderly heffect hrestart ht hd hname

namespace World

end World

/-! ## A download under way -/

def sampleHeader : FileProtocol.FileHeader :=
  ⟨1, 4096, 1, [1], List.replicate 12 0, List.replicate 16 0⟩

def sampleHeaderBytes : Bytes := FileProtocol.serializeFileHeader sampleHeader

def sampleId : Bytes := List.replicate 32 97

def sampleChunk : Bytes := FileProtocol.serializeFileChunk ⟨0, List.replicate 17 9⟩

def emptyServer : World 2 := ({} : World 2).restart 0 (fun _ => 0) fun _ => none

theorem emptyServer_init : emptyServer.Init := ⟨[], 0, fun _ => 0, fun _ => none, List.nodup_nil, nofun, rfl⟩

def sampleUpload : List (Event 2) :=
  [.uploadRequest 0 sampleHeaderBytes, .makeDirectory 0 sampleId, .writeHeader 0 .ok,
    .uploadChunk 0 sampleChunk .ok, .uploadDone 0 5]

def World.after (quota : ℕ) (w : World n) (e : Event n) : Option (World n) := (w.next quota e).map (·.1)

theorem step_after {e : Event n} {w w' : World n} (h : w.after quota e = some w') : World.Step quota w e w' := by
  obtain ⟨⟨v, reply⟩, hnext, rfl⟩ := Option.map_eq_some_iff.1 h
  exact ⟨reply, hnext⟩

end PqSuite.FileServer
