import Mathlib.Data.List.Pairwise
import Mathlib.Data.Nat.Count
import PqSuite.Server.Service

/-!
# How much the rate limiter lets through (`relay_service.cpp`)

A key has one window at a time. It starts with the first call at least a minute after the last one
started, and every call in it is counted, also one that is refused. The counter is a 32-bit `int`: the
limit is kept in a window exactly if fewer than 2^31 calls come in it. `prune` drops windows that started
five minutes ago, on which no answer depends.
-/

namespace PqSuite.Relay

/-! ## The windows of one key -/

/-- The window a call at `now` is counted in, with that call counted. -/
def Window.next (w : Window) (now : Time) : Window :=
  let w := if now - w.start ≥ 60 then ⟨now, 0⟩ else w
  { w with count := increment w.count }

/-- A window that a call at `now` does not count in. -/
def Window.Over (w : Window) (now : Time) : Prop := 60 ≤ now - w.start

namespace Window

variable {w v : Window} {now t : Time} {limit : Int} {ts : List Time}

theorem next_of_over (h : w.Over now) : w.next now = ⟨now, 1⟩ := by
  have hreset : now - w.start ≥ 60 := h
  rw [next, if_pos hreset]
  rfl

theorem next_of_not_over (h : ¬w.Over now) : w.next now = ⟨w.start, increment w.count⟩ := by
  have hstays : ¬now - w.start ≥ 60 := h
  rw [next, if_neg hstays]

theorem Over.mono (h : w.Over now) (hle : now ≤ t) : w.Over t := by
  unfold Over at *
  lia

theorem start_next (w : Window) (now : Time) : (w.next now).start = w.start ∨
    (w.next now).start = now ∧ w.start + 60 ≤ now := by
  by_cases h : w.Over now
  · rw [next_of_over h]
    unfold Over at h
    exact .inr ⟨rfl, by lia⟩
  · rw [next_of_not_over h]
    exact .inl rfl

theorem lt_start_next : now < (w.next now).start + 60 := by
  by_cases h : w.Over now
  · rw [next_of_over h]
    dsimp only
    lia
  · rw [next_of_not_over h]
    unfold Over at h
    dsimp only
    lia

def trace (w : Window) : List Time → List (Time × Window)
  | [] => []
  | now :: ts => (now, w.next now) :: (w.next now).trace ts

/-- A call depends on those before it only through the last of them. -/
theorem trace_split {l l' : List (Time × Window)} {x : Time × Window} (h : w.trace ts = l ++ x :: l') :
    x.2 = ((l.getLast?.map (·.2)).getD w).next x.1 := by
  induction l generalizing w ts with
  | nil =>
    cases ts with
    | nil => cases h
    | cons now ts =>
      obtain ⟨rfl, -⟩ := List.cons.inj h
      rfl
  | cons y l ih =>
    cases ts with
    | nil => cases h
    | cons now ts =>
      obtain ⟨rfl, hrest⟩ := List.cons.inj h
      rw [ih hrest, List.getLast?_cons]
      cases l.getLast? with
      | none => rfl
      | some z => rfl

theorem start_trace : ∀ x ∈ w.trace ts, x.2.start = w.start ∨ w.start + 60 ≤ x.2.start := by
  induction ts generalizing w with
  | nil => exact fun x hx => absurd hx List.not_mem_nil
  | cons now ts ih =>
    intro x hx
    have hstart := start_next w now
    rcases List.mem_cons.1 hx with rfl | hx
    · dsimp only
      lia
    · have := ih x hx
      lia

theorem pairwise_trace : (w.trace ts).Pairwise fun x y =>
    x.2.start = y.2.start ∨ x.2.start + 60 ≤ y.2.start := by
  induction ts generalizing w with
  | nil => exact .nil
  | cons now ts ih =>
    refine List.pairwise_cons.2 ⟨fun y hy => ?_, ih⟩
    have := start_trace y hy
    dsimp only
    lia

/-- A window covers less than a minute from its start. The first one starts at 0 if it is the first call
that finds it there. -/
theorem now_trace (hw : 0 ≤ w.start) (hts : ts.Pairwise (· ≤ ·))
    (hle : ∀ t ∈ ts, w.start ≤ t ∨ w.start = 0) :
    ∀ x ∈ w.trace ts, 0 ≤ x.2.start ∧ x.1 < x.2.start + 60 ∧ (x.2.start ≤ x.1 ∨ x.2.start = 0) := by
  induction ts generalizing w with
  | nil => exact fun x hx => absurd hx List.not_mem_nil
  | cons now ts ih =>
    obtain ⟨hnow, hts⟩ := List.pairwise_cons.1 hts
    have hstart := start_next w now
    have hfirst := hle now List.mem_cons_self
    intro x hx
    rcases List.mem_cons.1 hx with rfl | hx
    · refine ⟨?_, lt_start_next, ?_⟩
      · dsimp only
        lia
      · dsimp only
        lia
    · refine ih (by lia) hts (fun t ht => ?_) x hx
      have hnext := hnow t ht
      have hlater := hle t (List.mem_cons_of_mem now ht)
      lia

/-- The calls in one window are counted one after the other, from what the window has counted before. -/
theorem counts_trace (w : Window) (ts : List Time) (s : Time) :
    ((w.trace ts).filter (·.2.start = s)).map (·.2.count) =
      (List.range ((w.trace ts).filter (·.2.start = s)).length).map fun i =>
        ((if w.start = s then w.count else 0) + (i + 1 : ℕ)).bmod (2 ^ 32) := by
  induction ts generalizing w with
  | nil => rfl
  | cons now ts ih =>
    have hlater := ih (w.next now)
    rw [trace]
    by_cases hfirst : (w.next now).start = s
    · -- the first call is in the window, and the others go on from its count
      rw [List.filter_cons_of_pos (by simpa using hfirst), List.length_cons, List.range_succ_eq_map,
        List.map_cons, List.map_cons, List.map_map, hlater, if_pos hfirst]
      have hcount : (w.next now).count = ((if w.start = s then w.count else 0) + 1).bmod (2 ^ 32) := by
        by_cases hover : w.Over now
        · rw [next_of_over hover] at hfirst ⊢
          have hnot : w.start ≠ s := by
            unfold Over at hover
            dsimp only at hfirst
            lia
          rw [if_neg hnot]
          rfl
        · rw [next_of_not_over hover] at hfirst ⊢
          rw [if_pos hfirst]
          rfl
      rw [hcount]
      refine congrArg _ (List.map_congr_left fun i _ => ?_)
      rw [Int.bmod_add_bmod, Function.comp_apply, Nat.cast_add, Nat.cast_add, Nat.cast_succ, Int.add_assoc,
        Int.add_comm 1]
      rfl
    · rw [List.filter_cons_of_neg (by simpa using hfirst), hlater, if_neg hfirst]
      by_cases hs : w.start = s
      · -- the window `s` is over, and no later one starts there
        have hnone : (((w.next now).trace ts).filter (·.2.start = s)) = [] := by
          rw [List.filter_eq_nil_iff]
          intro x hx
          have hmoved := start_next w now
          have hstart := start_trace x hx
          have hne : x.2.start ≠ s := by lia
          simpa using hne
        rw [hnone, List.length_nil, List.range_zero, List.map_nil, List.map_nil]
      · rw [if_neg hs]

/-- As long as the counter does not start over, as many calls are allowed as the limit says. -/
theorem count_allowed {n : ℕ} (hn : n < 2 ^ 31) (limit : Int) :
    Nat.count (fun i : ℕ => ((i + 1 : ℕ) : Int).bmod (2 ^ 32) ≤ limit) n = min n limit.toNat := by
  induction n with
  | zero => exact (Nat.zero_min _).symm
  | succ n ih =>
    have hcount : ((n + 1 : ℕ) : Int).bmod (2 ^ 32) = n + 1 := by
      rw [Int.bmod_eq_of_le_mul_two] <;> lia
    rw [Nat.count_succ, ih (by lia), hcount]
    split_ifs <;> lia

/-- Of the calls in a window no more than the limit are allowed, unless the counter starts over: the call
that finds it at its greatest value is allowed whatever the limit. -/
theorem count_allowed_le_iff (n : ℕ) (hleast : -2 ^ 31 ≤ limit) (hgreatest : limit < 2 ^ 31) :
    Nat.count (fun i : ℕ => ((i + 1 : ℕ) : Int).bmod (2 ^ 32) ≤ limit) n ≤ limit.toNat ↔ n < 2 ^ 31 := by
  refine ⟨fun h => ?_, fun h => ?_⟩
  · by_contra hmany
    have hover : ((2147483647 + 1 : ℕ) : Int).bmod (2 ^ 32) ≤ limit := hleast
    have hfirst := @count_allowed 2147483647 (by lia) limit
    have hmono := Nat.count_monotone (fun i : ℕ => ((i + 1 : ℕ) : Int).bmod (2 ^ 32) ≤ limit)
      (show 2147483647 + 1 ≤ n by lia)
    rw [Nat.count_succ, if_pos hover, hfirst] at hmono
    lia
  · rw [count_allowed h]
    exact Nat.min_le_right _ _

end Window

/-! ## Calls -/

inductive LimitCall where
  | allow (key : Bytes) (now : Time)
  | prune (now : Time)

def LimitCall.now : LimitCall → Time
  | .allow _ now | .prune now => now

def LimitCall.isAllow : LimitCall → Bool
  | .allow .. => true
  | .prune _ => false

/-- The time of a call for a key. -/
def LimitCall.timeOf (k : Bytes) : LimitCall → Option Time
  | .allow key now => if key = k then some now else none
  | .prune _ => none

theorem LimitCall.now_eq_of_timeOf {k : Bytes} {c : LimitCall} {t : Time} (h : c.timeOf k = some t) :
    c.now = t := by
  cases c with
  | allow key now =>
    rw [timeOf] at h
    split_ifs at h
    exact Option.some.inj h
  | prune now => cases h

/-- What a call of `allow` answered, and the window it was counted in. -/
structure LimitAnswer where
  key : Bytes
  now : Time
  window : Window
  allowed : Bool

namespace RateLimiter

/-- The limiter before the first call. -/
def empty : RateLimiter := ⟨fun _ => {}⟩

/-- The answers to the calls, and what was known of the keys before. -/
def answersFrom (limit : Int) (r : RateLimiter) : List LimitCall → List LimitAnswer
  | [] => []
  | .allow key now :: calls =>
    let (allowed, r') := r.allow key limit now
    ⟨key, now, r'.windows key, allowed⟩ :: r'.answersFrom limit calls
  | .prune now :: calls => (r.prune now).answersFrom limit calls

def answers (limit : Int) (calls : List LimitCall) : List LimitAnswer := empty.answersFrom limit calls

/-- The answers for a key in its window that started at `s`. -/
def inWindow (limit : Int) (calls : List LimitCall) (k : Bytes) (s : Time) : List LimitAnswer :=
  (answers limit calls).filter fun a => a.key = k ∧ a.window.start = s

variable {limit : Int} {r r' : RateLimiter} {calls calls' : List LimitCall} {now t : Time} {k : Bytes}

theorem allow_fst (r : RateLimiter) (key : Bytes) (limit : Int) (now : Time) :
    (r.allow key limit now).1 = decide (((r.windows key).next now).count ≤ limit) := rfl

theorem windows_allow (r : RateLimiter) (key : Bytes) (limit : Int) (now : Time) (k : Bytes) :
    (r.allow key limit now).2.windows k = if k = key then (r.windows key).next now else r.windows k := rfl

theorem windows_prune (r : RateLimiter) (now : Time) (k : Bytes) :
    (r.prune now).windows k = if now - (r.windows k).start ≥ 300 then {} else r.windows k := rfl

theorem answersFrom_allow (r : RateLimiter) (key : Bytes) (now : Time) (calls : List LimitCall) :
    r.answersFrom limit (.allow key now :: calls) =
      ⟨key, now, (r.windows key).next now, decide (((r.windows key).next now).count ≤ limit)⟩ ::
        (r.allow key limit now).2.answersFrom limit calls := by
  have hself : (r.allow key limit now).2.windows key = (r.windows key).next now := by
    rw [windows_allow, if_pos rfl]
  show LimitAnswer.mk key now ((r.allow key limit now).2.windows key) (r.allow key limit now).1 :: _ = _
  rw [hself, allow_fst]
  rfl

/-! ### Pruning -/

/-- From `t` on, two limiters answer alike: a key has the same window in both, or its next call starts
one. -/
structure Alike (r r' : RateLimiter) (t : Time) : Prop where
  same : ∀ k, r.windows k = r'.windows k ∨ (r.windows k).Over t ∧ (r'.windows k).Over t
  /-- A window that was started has a start of 60 or more, one that was not has 0. -/
  start : ∀ k, 0 ≤ (r.windows k).start

theorem Alike.next_eq (h : Alike r r' t) (hle : t ≤ now) (k : Bytes) :
    (r.windows k).next now = (r'.windows k).next now := by
  rcases h.same k with heq | ⟨hover, hover'⟩
  · rw [heq]
  · rw [Window.next_of_over (hover.mono hle), Window.next_of_over (hover'.mono hle)]

theorem Alike.mono (h : Alike r r' t) (hle : t ≤ now) : Alike r r' now :=
  ⟨fun k => (h.same k).imp_right fun ⟨hover, hover'⟩ => ⟨hover.mono hle, hover'.mono hle⟩, h.start⟩

theorem Alike.allow (h : Alike r r' t) (hle : t ≤ now) (key : Bytes) :
    Alike (r.allow key limit now).2 (r'.allow key limit now).2 now where
  same k := by
    rw [windows_allow, windows_allow]
    split_ifs with hk
    · exact .inl (h.next_eq hle key)
    · exact (h.mono hle).same k
  start k := by
    rw [windows_allow]
    split_ifs with hk
    · have hstart := h.start key
      have hnext := Window.start_next (r.windows key) now
      lia
    · exact h.start k

/-- A window that is dropped was over, and so is the one that the key is given next. -/
theorem Alike.prune (h : Alike r r' t) (hle : t ≤ now) : Alike (r.prune now) r' now where
  same k := by
    rw [windows_prune]
    split_ifs with hold
    · have hstart := h.start k
      have hfresh : (({} : Window)).Over now := by
        show 60 ≤ now - 0
        lia
      have hover : (r.windows k).Over now := by
        unfold Window.Over
        lia
      refine .inr ⟨hfresh, ?_⟩
      rcases h.same k with heq | ⟨-, hover'⟩
      · exact heq ▸ hover
      · exact hover'.mono hle
    · exact (h.mono hle).same k
  start k := by
    rw [windows_prune]
    split_ifs
    · exact Int.le_refl 0
    · exact h.start k

/-- The answers are those to the same calls without pruning. -/
theorem Alike.answersFrom_eq (h : Alike r r' t) (hcalls : calls.Pairwise (·.now ≤ ·.now))
    (hle : ∀ c ∈ calls, t ≤ c.now) :
    r.answersFrom limit calls = r'.answersFrom limit (calls.filter LimitCall.isAllow) := by
  induction calls generalizing r r' t with
  | nil => rfl
  | cons c calls ih =>
    obtain ⟨hlater, hrest⟩ := List.pairwise_cons.1 hcalls
    have hnow : t ≤ c.now := hle c List.mem_cons_self
    cases c with
    | allow key now =>
      have hwindow : (r.windows key).next now = (r'.windows key).next now := h.next_eq hnow key
      rw [List.filter_cons_of_pos rfl, answersFrom_allow, answersFrom_allow, hwindow]
      exact congrArg _ (ih (h.allow hnow key) hrest hlater)
    | prune now =>
      rw [List.filter_cons_of_neg Bool.false_ne_true, answersFrom]
      exact ih (h.prune hnow) hrest hlater

theorem alike_empty (t : Time) : Alike empty empty t := ⟨fun _ => .inl rfl, fun _ => Int.le_refl 0⟩

/-! ### The calls of one key -/

def timesOf (k : Bytes) (calls : List LimitCall) : List Time := calls.filterMap (·.timeOf k)

theorem pairwise_timesOf (hcalls : calls.Pairwise (·.now ≤ ·.now)) (k : Bytes) :
    (timesOf k calls).Pairwise (· ≤ ·) := by
  refine List.Pairwise.filterMap _ (fun c c' hle t ht t' ht' => ?_) hcalls
  rw [← LimitCall.now_eq_of_timeOf ht, ← LimitCall.now_eq_of_timeOf ht']
  exact hle

/-- Keys do not affect each other. -/
theorem answersFrom_key (r : RateLimiter) (hcalls : ∀ c ∈ calls, c.isAllow) (k : Bytes) :
    ((r.answersFrom limit calls).filter (·.key = k)).map (fun a => (a.now, a.window)) =
      (r.windows k).trace (timesOf k calls) := by
  induction calls generalizing r with
  | nil => rfl
  | cons c calls ih =>
    have hrest := fun r => ih r fun c' hc' => hcalls c' (List.mem_cons_of_mem c hc')
    cases c with
    | prune now => cases hcalls _ List.mem_cons_self
    | allow key now =>
      rw [answersFrom_allow, timesOf]
      by_cases hk : key = k
      · subst hk
        have htime : (LimitCall.allow key now).timeOf key = some now := if_pos rfl
        rw [List.filter_cons_of_pos (by simp), List.filterMap_cons_some htime, List.map_cons, hrest,
          windows_allow, if_pos rfl]
        rfl
      · have htime : (LimitCall.allow key now).timeOf k = none := if_neg hk
        rw [List.filter_cons_of_neg (by simpa using hk), List.filterMap_cons_none htime, hrest, windows_allow,
          if_neg fun h => hk h.symm]
        rfl

theorem allowed_of_mem (r : RateLimiter) {a : LimitAnswer} (h : a ∈ r.answersFrom limit calls) :
    a.allowed = decide (a.window.count ≤ limit) := by
  induction calls generalizing r with
  | nil => cases h
  | cons c calls ih =>
    cases c with
    | prune now => exact ih _ h
    | allow key now =>
      rw [answersFrom_allow] at h
      rcases List.mem_cons.1 h with rfl | h
      · rfl
      · exact ih _ h

section Ordered

-- The calls are made at times that do not go back.
variable (hcalls : calls.Pairwise (·.now ≤ ·.now)) {a : LimitAnswer}

include hcalls

theorem answers_eq :
    answers limit calls = answers limit (calls.filter LimitCall.isAllow) := by
  cases calls with
  | nil => rfl
  | cons c calls =>
    refine (alike_empty c.now).answersFrom_eq hcalls fun c' hc' => ?_
    rcases List.mem_cons.1 hc' with rfl | hc'
    · exact Int.le_refl _
    · exact (List.pairwise_cons.1 hcalls).1 c' hc'

/-- The windows of a key are those of its calls alone. -/
theorem answers_key (limit : Int) (k : Bytes) :
    ((answers limit calls).filter (·.key = k)).map (fun a => (a.now, a.window)) =
      ({} : Window).trace (timesOf k (calls.filter LimitCall.isAllow)) := by
  rw [answers_eq hcalls, answers, answersFrom_key _ fun c hc => (List.mem_filter.1 hc).2]
  rfl

theorem trace_answers (k : Bytes) (ha : a ∈ answers limit calls) (hk : a.key = k) :
    (a.now, a.window) ∈ ({} : Window).trace (timesOf k (calls.filter LimitCall.isAllow)) := by
  rw [← answers_key hcalls limit]
  exact List.mem_map_of_mem (List.mem_filter.2 ⟨ha, by simpa using hk⟩)

/-- The calls for a key in one window are counted one after the other. -/
theorem counts_inWindow (limit : Int) (k : Bytes) (s : Time) :
    (inWindow limit calls k s).map (·.window.count) =
      (List.range (inWindow limit calls k s).length).map fun i => ((i + 1 : ℕ) : Int).bmod (2 ^ 32) := by
  have hcounts := Window.counts_trace {} (timesOf k (calls.filter LimitCall.isAllow)) s
  have hzero : (if ({} : Window).start = s then ({} : Window).count else 0) = 0 := ite_self _
  rw [← answers_key hcalls limit, List.filter_map, List.map_map, List.length_map, List.filter_filter,
    hzero] at hcounts
  have hin : inWindow limit calls k s =
      (answers limit calls).filter fun a => decide (a.window.start = s) && decide (a.key = k) := by
    refine List.filter_congr fun a _ => ?_
    rw [Bool.decide_and, Bool.and_comm]
  rw [hin]
  simpa only [Int.zero_add, Function.comp_def] using hcounts

theorem allowed_eq_count (limit : Int) (k : Bytes) (s : Time) :
    ((inWindow limit calls k s).filter (·.allowed)).length =
      Nat.count (fun i : ℕ => ((i + 1 : ℕ) : Int).bmod (2 ^ 32) ≤ limit)
        (inWindow limit calls k s).length := by
  have hallowed : (inWindow limit calls k s).filter (·.allowed) =
      (inWindow limit calls k s).filter fun a => decide (a.window.count ≤ limit) :=
    List.filter_congr fun a ha => allowed_of_mem _ (List.mem_filter.1 ha).1
  have hcount : (inWindow limit calls k s).countP (fun a => decide (a.window.count ≤ limit)) =
      ((inWindow limit calls k s).map (·.window.count)).countP fun n => decide (n ≤ limit) := by
    rw [List.countP_map]
    rfl
  rw [hallowed, ← List.countP_eq_length_filter, hcount, counts_inWindow hcalls, List.countP_map]
  rfl

/-- At most the limit in one window, as long as the counter does not start over. -/
theorem allowed_in_window {k : Bytes} {s : Time} (hfew : (inWindow limit calls k s).length < 2 ^ 31) :
    ((inWindow limit calls k s).filter (·.allowed)).length ≤ limit.toNat := by
  rw [allowed_eq_count hcalls, Window.count_allowed hfew]
  exact Nat.min_le_right _ _

theorem allowed_in_window_iff (hleast : -2 ^ 31 ≤ limit) (hgreatest : limit < 2 ^ 31) (k : Bytes)
    (s : Time) : ((inWindow limit calls k s).filter (·.allowed)).length ≤ limit.toNat ↔
      (inWindow limit calls k s).length < 2 ^ 31 := by
  rw [allowed_eq_count hcalls]
  exact Window.count_allowed_le_iff _ hleast hgreatest

theorem times_of_mem (ha : a ∈ answers limit calls) : 0 ≤ a.window.start ∧ a.now < a.window.start + 60 ∧
      (a.window.start ≤ a.now ∨ a.window.start = 0) :=
  Window.now_trace (Int.le_refl 0) (pairwise_timesOf (hcalls.filter _) a.key) (fun _ _ => .inr rfl) _
    (trace_answers hcalls a.key ha rfl)

/-- Two windows of one key are the same, or start a minute apart. -/
theorem starts_of_mem {b : LimitAnswer} (ha : a ∈ answers limit calls) (hb : b ∈ answers limit calls)
    (hkey : a.key = b.key) :
    a.window.start = b.window.start ∨ a.window.start + 60 ≤ b.window.start ∨
      b.window.start + 60 ≤ a.window.start := by
  let apart (x y : Time × Window) : Prop :=
    x.2.start = y.2.start ∨ x.2.start + 60 ≤ y.2.start ∨ y.2.start + 60 ≤ x.2.start
  have hsymm : Std.Symm apart := ⟨fun x y h => by
    rcases h with heq | hlt | hlt
    · exact .inl heq.symm
    · exact .inr (.inr hlt)
    · exact .inr (.inl hlt)⟩
  have hpair : (Window.trace {} (timesOf b.key (calls.filter LimitCall.isAllow))).Pairwise apart :=
    Window.pairwise_trace.imp fun h => h.imp_right .inl
  exact hpair.forall_of_forall (fun _ _ => .inl rfl) (trace_answers hcalls b.key ha hkey)
    (trace_answers hcalls b.key hb rfl)

section Counted

variable {k : Bytes} (hfew : ∀ s, (inWindow limit calls k s).length < 2 ^ 31)

include hfew

/-- Answers of one key that all fall into one window. -/
theorem allowed_of_one_window (p : LimitAnswer → Prop) [DecidablePred p]
    (hone : ∀ a ∈ answers limit calls, ∀ b ∈ answers limit calls, a.key = k → b.key = k → p a → p b →
      a.window.start = b.window.start) :
    ((answers limit calls).filter fun a => a.key = k ∧ p a ∧ a.allowed).length ≤ limit.toNat := by
  cases hfound : (answers limit calls).filter fun a => a.key = k ∧ p a ∧ a.allowed with
  | nil => exact Nat.zero_le _
  | cons b rest =>
    have hb : b ∈ (answers limit calls).filter fun a => a.key = k ∧ p a ∧ a.allowed :=
      hfound ▸ List.mem_cons_self
    obtain ⟨hb, hcond⟩ := List.mem_filter.1 hb
    obtain ⟨hkb, hpb, -⟩ := of_decide_eq_true hcond
    rw [← hfound]
    refine le_trans (List.Sublist.length_le ?_) (allowed_in_window hcalls (hfew b.window.start))
    have hfilter : ((answers limit calls).filter fun a => a.key = k ∧ p a ∧ a.allowed) =
        ((inWindow limit calls k b.window.start).filter (·.allowed)).filter
          fun a => a.key = k ∧ p a ∧ a.allowed := by
      rw [inWindow, List.filter_filter, List.filter_filter]
      refine List.filter_congr fun a ha => ?_
      rw [Bool.eq_iff_iff]
      simp only [Bool.and_eq_true, decide_eq_true_eq]
      refine ⟨fun h => ⟨⟨h, h.2.2⟩, h.1, ?_⟩, fun h => h.1.1⟩
      exact hone a ha b hb h.1 hkb h.2.1 hpb
    rw [hfilter]
    exact List.filter_sublist

/-- In a minute there are at most two windows: one that started before it and one that starts in it. -/
theorem allowed_in_minute (t : Time) :
    ((answers limit calls).filter fun a => a.key = k ∧ t ≤ a.now ∧ a.now < t + 60 ∧ a.allowed).length ≤
      2 * limit.toNat := by
  have hbefore := allowed_of_one_window hcalls hfew
    (fun a => a.window.start < t ∧ t ≤ a.now ∧ a.now < t + 60) fun a ha b hb hka hkb hpa hpb => by
      have := times_of_mem hcalls ha
      have := times_of_mem hcalls hb
      have := starts_of_mem hcalls ha hb (hka.trans hkb.symm)
      lia
  have hduring := allowed_of_one_window hcalls hfew
    (fun a => t ≤ a.window.start ∧ t ≤ a.now ∧ a.now < t + 60) fun a ha b hb hka hkb hpa hpb => by
      have := times_of_mem hcalls ha
      have := times_of_mem hcalls hb
      have := starts_of_mem hcalls ha hb (hka.trans hkb.symm)
      lia
  rw [List.length_eq_length_filter_add fun a => decide (a.window.start < t), List.filter_filter,
    List.filter_filter, Nat.two_mul]
  refine Nat.add_le_add (le_trans (Nat.le_of_eq ?_) hbefore) (le_trans (Nat.le_of_eq ?_) hduring)
  · refine congrArg List.length (List.filter_congr fun a _ => ?_)
    rw [← Bool.decide_and]
    exact decide_eq_decide.2 (by grind)
  · refine congrArg List.length (List.filter_congr fun a _ => ?_)
    rw [← decide_not, ← Bool.decide_and]
    exact decide_eq_decide.2 (by grind)

end Counted

/-- A call depends on those for its key before it only through the last window. -/
theorem window_of_split {before after : List LimitAnswer}
    (h : answers limit calls = before ++ a :: after) :
    a.window = Window.next (((before.filter (·.key = a.key)).getLast?.map (·.window)).getD {}) a.now := by
  have htrace := answers_key hcalls limit a.key
  rw [h, List.filter_append, List.filter_cons_of_pos (by simp), List.map_append, List.map_cons] at htrace
  have hnext := Window.trace_split htrace.symm
  rw [List.getLast?_map, Option.map_map] at hnext
  exact hnext

end Ordered

/-- What the limiter answers to any calls at times that do not go back, with a limit that is an `int`.
In a window at most the limit is allowed exactly if fewer than 2^31 calls come in it; for a key of which
this holds at most twice the limit is allowed in a minute. A call is counted in the window before it,
unless that one started a minute ago: then it starts one, and is allowed. -/
theorem rate_is_limited {limit : Int} (hleast : -2 ^ 31 ≤ limit) (hgreatest : limit < 2 ^ 31)
    {calls : List LimitCall} (hcalls : calls.Pairwise (·.now ≤ ·.now)) :
    (∀ calls', calls'.Pairwise (·.now ≤ ·.now) →
      calls'.filter LimitCall.isAllow = calls.filter LimitCall.isAllow →
      answers limit calls' = answers limit calls) ∧
    (∀ key s, ((inWindow limit calls key s).filter (·.allowed)).length ≤ limit.toNat ↔
      (inWindow limit calls key s).length < 2 ^ 31) ∧
    (∀ key, (∀ s, (inWindow limit calls key s).length < 2 ^ 31) →
      ∀ t, ((answers limit calls).filter fun a => a.key = key ∧ t ≤ a.now ∧ a.now < t + 60 ∧
        a.allowed).length ≤ 2 * limit.toNat) ∧
    ∀ before a after, answers limit calls = before ++ a :: after →
      let last := (before.filter (·.key = a.key)).getLast?.elim 0 (·.window.start)
      a.window.start = (if last + 60 ≤ a.now then a.now else last) ∧
      ((∀ b ∈ (before.filter (·.key = a.key)).getLast?, b.window.start + 60 ≤ a.now) → 1 ≤ limit →
        a.allowed) := by
  refine ⟨fun calls' hcalls' heq => ?_, allowed_in_window_iff hcalls hleast hgreatest,
    fun key hfew => allowed_in_minute hcalls hfew, fun before a after hsplit => ?_⟩
  · rw [answers_eq hcalls', answers_eq hcalls, heq]
  have hwindow := window_of_split hcalls hsplit
  have hanswer : a.allowed = decide (a.window.count ≤ limit) := allowed_of_mem empty (by
    rw [← answers, hsplit]
    exact List.mem_append_right _ List.mem_cons_self)
  rw [hanswer, hwindow, decide_eq_true_eq]
  cases (before.filter (·.key = a.key)).getLast? with
  | none =>
    dsimp only [Option.elim_none, Option.map_none, Option.getD_none, Window.next]
    refine ⟨?_, fun _ hlimit => ?_⟩
    · split_ifs <;> lia
    · split_ifs
      · exact hlimit
      · exact hlimit
  | some b =>
    dsimp only [Option.elim_some, Option.map_some, Option.getD_some]
    refine ⟨?_, fun hover hlimit => ?_⟩
    · dsimp only [Window.next]
      split_ifs <;> lia
    · have hover : b.window.Over a.now := by
        have := hover b rfl
        unfold Window.Over
        lia
      rw [Window.next_of_over hover]
      exact hlimit

/-- Two calls in a window of the limit 1, and a third after the window was dropped. -/
def sampleCalls : List LimitCall :=
  [.allow [1] 100, .allow [1] 159, .prune 400, .allow [2] 400, .allow [1] 401]

theorem rate_is_limited_sample :
    sampleCalls.Pairwise (·.now ≤ ·.now) ∧
      (answers 1 sampleCalls).map (·.allowed) = [true, false, true, true] ∧
      ((inWindow 1 sampleCalls [1] 100).filter (·.allowed)).length ≤ 1 := by
  have hcalls : sampleCalls.Pairwise (·.now ≤ ·.now) := by decide
  exact ⟨hcalls, by decide, ((rate_is_limited (by decide) (by decide) hcalls).2.1 [1] 100).2 (by decide)⟩

/-! ## A counter that starts over -/

/-- So many calls for one key in one second. -/
def sameSecond (n : ℕ) : List LimitCall := List.replicate n (.allow [1] 100)

theorem ordered_sameSecond (n : ℕ) : (sameSecond n).Pairwise (·.now ≤ ·.now) :=
  List.pairwise_replicate.2 (.inr (Int.le_refl _))

theorem mem_answers_sameSecond {n : ℕ} {a : LimitAnswer} (hr : ((r.windows [1]).next 100).start = 100)
    (ha : a ∈ r.answersFrom limit (sameSecond n)) : a.key = [1] ∧ a.window.start = 100 := by
  induction n generalizing r with
  | zero => cases ha
  | succ n ih =>
    rw [sameSecond, List.replicate_succ, answersFrom_allow] at ha
    rcases List.mem_cons.1 ha with rfl | ha
    · exact ⟨rfl, hr⟩
    · refine ih ?_ ha
      rw [windows_allow, if_pos rfl]
      have hstart := Window.start_next ((r.windows [1]).next 100) 100
      lia

theorem length_answersFrom_sameSecond (r : RateLimiter) (n : ℕ) :
    (r.answersFrom limit (sameSecond n)).length = n := by
  induction n generalizing r with
  | zero => rfl
  | succ n ih =>
    rw [sameSecond, List.replicate_succ, answersFrom_allow, List.length_cons]
    exact congrArg (· + 1) (ih _)

theorem length_inWindow_sameSecond (limit : Int) (n : ℕ) :
    (inWindow limit (sameSecond n) [1] 100).length = n := by
  have hall : inWindow limit (sameSecond n) [1] 100 = answers limit (sameSecond n) := by
    refine List.filter_eq_self.2 fun a ha => ?_
    exact decide_eq_true (mem_answers_sameSecond (by rfl) ha)
  rw [hall]
  exact length_answersFrom_sameSecond _ n

/-- With a limit of one call a minute, 2^31 calls in one second: the counter has started over, and more
than one of them is allowed. -/
theorem second_call_allowed_after_overflow : (sameSecond (2 ^ 31)).Pairwise (·.now ≤ ·.now) ∧
    (1 : Int).toNat < ((inWindow 1 (sameSecond (2 ^ 31)) [1] 100).filter (·.allowed)).length := by
  refine ⟨ordered_sameSecond _, Nat.lt_of_not_le fun hkept => ?_⟩
  have hfew := (allowed_in_window_iff (ordered_sameSecond _) (by decide) (by decide) [1] 100).1 hkept
  rw [length_inWindow_sameSecond] at hfew
  exact Nat.lt_irrefl _ hfew

end RateLimiter

end PqSuite.Relay
