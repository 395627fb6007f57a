import Mathlib.Data.List.Nodup
import Mathlib.Logic.Relation

/-!
# A list that grows while it is scanned

The nodes that can be reached from one node of a finite graph, found by going through a list once and
appending to it what each of its members leads to and it does not have yet. The graph may have cycles:
a round either passes one member or appends nodes that were missing, of which there are no more than
edges.
-/

namespace Worklist

variable {α : Type*} [DecidableEq α] {edges : List (α × α)} {found : List α} {x y : α} {e : α × α}

/-- Appends the other end of an edge from `x`, if it is missing. -/
def follow (x : α) (found : List α) (e : α × α) : List α :=
  if e.1 = x ∧ e.2 ∉ found then found ++ [e.2] else found

def expand (edges : List (α × α)) (x : α) (found : List α) : List α := edges.foldl (follow x) found

def missing (edges : List (α × α)) (found : List α) : ℕ := (edges.filter (·.2 ∉ found)).length

/-- An edge whose end is appended is not counted any more. -/
theorem missing_follow_le (found : List α) (he : e ∈ edges) :
    missing edges (follow x found e) + (follow x found e).length ≤ missing edges found + found.length := by
  unfold follow
  split_ifs with hnew
  · have hsplit : edges.filter (·.2 ∉ found ++ [e.2]) =
        (edges.filter (·.2 ∉ found)).filter (·.2 ≠ e.2) := by
      rw [List.filter_filter]
      refine List.filter_congr fun e' _ => ?_
      simp [and_comm]
    have hless : missing edges (found ++ [e.2]) < missing edges found := by
      rw [missing, hsplit, missing, List.length_filter_lt_length_iff_exists]
      exact ⟨e, List.mem_filter.2 ⟨he, by simpa using hnew.2⟩, by simp⟩
    rw [List.length_append, List.length_singleton]
    omega
  · exact Nat.le_refl _

theorem missing_foldl_le (l : List (α × α)) (hl : l ⊆ edges) (found : List α) :
    missing edges (l.foldl (follow x) found) + (l.foldl (follow x) found).length ≤
      missing edges found + found.length := by
  induction l generalizing found with
  | nil => exact Nat.le_refl _
  | cons e l ih =>
    obtain ⟨he, hl⟩ := List.cons_subset.1 hl
    exact Nat.le_trans (ih hl _) (missing_follow_le found he)

theorem follow_eq (x : α) (found : List α) (e : α × α) :
    ∃ more, follow x found e = found ++ more ∧ ∀ y ∈ more, y = e.2 ∧ e.1 = x := by
  unfold follow
  split_ifs with hnew
  · exact ⟨[e.2], rfl, fun y hy => ⟨List.mem_singleton.1 hy, hnew.1⟩⟩
  · exact ⟨[], (List.append_nil _).symm, by simp⟩

/-- Only ends of edges from `x` are appended. -/
theorem foldl_follow_eq (x : α) (l : List (α × α)) (found : List α) :
    ∃ more, l.foldl (follow x) found = found ++ more ∧ ∀ y ∈ more, (x, y) ∈ l := by
  induction l generalizing found with
  | nil => exact ⟨[], (List.append_nil _).symm, by simp⟩
  | cons e l ih =>
    obtain ⟨first, hfirst, hedge⟩ := follow_eq x found e
    obtain ⟨rest, hrest, hmore⟩ := ih (follow x found e)
    refine ⟨first ++ rest, by rw [List.foldl_cons, hrest, hfirst, List.append_assoc], fun y hy => ?_⟩
    rcases List.mem_append.1 hy with hy | hy
    · obtain ⟨rfl, rfl⟩ := hedge y hy
      exact List.mem_cons_self
    · exact List.mem_cons_of_mem e (hmore y hy)

def close (edges : List (α × α)) (i : ℕ) (found : List α) : List α :=
  if h : i < found.length then close edges (i + 1) (expand edges (found.get ⟨i, h⟩) found) else found
termination_by missing edges found + (found.length - i)
decreasing_by
  have hle := missing_foldl_le (x := found.get ⟨i, h⟩) edges (List.Subset.refl edges) found
  obtain ⟨more, hmore, -⟩ := foldl_follow_eq (found.get ⟨i, h⟩) edges found
  have hlength := congrArg List.length hmore
  rw [List.length_append] at hlength
  unfold expand
  omega

/-! ## What is found -/

theorem mem_follow : e.1 = x → e.2 ∈ follow x found e := by
  intro hx
  unfold follow
  split_ifs with hnew
  · exact List.mem_append_right _ (List.mem_singleton_self _)
  · exact not_not.1 fun hmem => hnew ⟨hx, hmem⟩

theorem mem_foldl_follow {l : List (α × α)} (h : (x, y) ∈ l) : y ∈ l.foldl (follow x) found := by
  induction l generalizing found with
  | nil => exact nomatch h
  | cons e l ih =>
    rcases List.mem_cons.1 h with rfl | h
    · obtain ⟨more, hmore, -⟩ := foldl_follow_eq x l (follow x found (x, y))
      rw [List.foldl_cons, hmore]
      exact List.mem_append_left _ (mem_follow rfl)
    · exact ih h

theorem nodup_follow (h : found.Nodup) : (follow x found e).Nodup := by
  unfold follow
  split_ifs with hnew
  · rw [List.nodup_append]
    refine ⟨h, List.nodup_singleton _, fun a ha b hb => ?_⟩
    rintro rfl
    exact hnew.2 (List.mem_singleton.1 hb ▸ ha)
  · exact h

theorem nodup_foldl_follow {l : List (α × α)} (h : found.Nodup) : (l.foldl (follow x) found).Nodup := by
  induction l generalizing found with
  | nil => exact h
  | cons e l ih => exact ih (nodup_follow h)

theorem nodup_close (edges : List (α × α)) (i : ℕ) (found : List α) (h : found.Nodup) :
    (close edges i found).Nodup := by
  induction i, found using close.induct edges with
  | case1 i found hi ih =>
    rw [close, dif_pos hi]
    exact ih (nodup_foldl_follow h)
  | case2 i found hi =>
    rw [close, dif_neg hi]
    exact h

def Edge (edges : List (α × α)) (x y : α) : Prop := (x, y) ∈ edges

/-- Everything in the list is reached from `a`, and the members before `i` lead nowhere else. -/
structure Scanned (edges : List (α × α)) (a : α) (i : ℕ) (found : List α) : Prop where
  start : a ∈ found
  reached : ∀ x ∈ found, Relation.ReflTransGen (Edge edges) a x
  closed : ∀ j (hj : j < found.length), j < i → ∀ y, Edge edges (found.get ⟨j, hj⟩) y → y ∈ found

theorem Scanned.next {a : α} {i : ℕ} (h : Scanned edges a i found) (hi : i < found.length) :
    Scanned edges a (i + 1) (expand edges (found.get ⟨i, hi⟩) found) := by
  obtain ⟨more, hmore, hedge⟩ := foldl_follow_eq (found.get ⟨i, hi⟩) edges found
  rw [expand, hmore]
  have hsame : ∀ j (hj : j < (found ++ more).length) (hj' : j < found.length),
      (found ++ more).get ⟨j, hj⟩ = found.get ⟨j, hj'⟩ := fun j hj hj' => List.getElem_append_left hj'
  constructor
  · exact List.mem_append_left _ h.start
  · intro x hx
    rcases List.mem_append.1 hx with hx | hx
    · exact h.reached x hx
    · exact (h.reached _ (List.get_mem _ _)).tail (hedge x hx)
  · intro j hj hji y hy
    rcases Nat.lt_succ_iff_lt_or_eq.1 hji with hlt | rfl
    · rw [hsame j hj (Nat.lt_trans hlt hi)] at hy
      exact List.mem_append_left _ (h.closed j _ hlt y hy)
    · rw [hsame j hj hi] at hy
      exact hmore ▸ mem_foldl_follow hy

theorem scanned_close {a : α} (i : ℕ) (found : List α) (h : Scanned edges a i found) :
    Scanned edges a (close edges i found).length (close edges i found) := by
  induction i, found using close.induct edges with
  | case1 i found hi ih =>
    rw [close, dif_pos hi]
    exact ih (h.next hi)
  | case2 i found hi =>
    rw [close, dif_neg hi]
    exact ⟨h.start, h.reached, fun j hj _ y => h.closed j hj (Nat.lt_of_lt_of_le hj (Nat.not_lt.1 hi)) y⟩

/-- The list ends up with what can be reached, and with nothing else. -/
theorem mem_close_iff {a : α} : x ∈ close edges 0 [a] ↔ Relation.ReflTransGen (Edge edges) a x := by
  have hstart : Scanned edges a 0 [a] :=
    ⟨List.mem_singleton_self a, fun x hx => List.mem_singleton.1 hx ▸ .refl, fun j hj hj0 => nomatch hj0⟩
  have hend := scanned_close 0 [a] hstart
  refine ⟨hend.reached x, fun hx => ?_⟩
  induction hx with
  | refl => exact hend.start
  | @tail y z _ hedge ih =>
    obtain ⟨⟨j, hj⟩, rfl⟩ := List.mem_iff_get.1 ih
    exact hend.closed j hj hj z hedge

end Worklist
