import Mathlib.Data.Nat.Basic
import Mathlib.Data.List.Induction

/-!
# Reading a growing table behind a cursor

Rows have keys that only grow, rows come and go between the reads, and a reader goes on after the last
key it read. `Covers live l` says that `l` was read without a gap: it is in order, and every row that is
still live and not after the last row of `l` is in `l`. A batch of the next live rows keeps this.
-/

namespace Cursor

variable {α : Type*} {key : α → ℕ} {live live' : α → Prop} {l batch rows : List α}

/-- Where to go on: after the last key read. -/
def position (key : α → ℕ) (l : List α) : ℕ := (l.getLast?.map key).getD 0

@[simp]
theorem position_nil : position key [] = 0 := rfl

@[simp]
theorem position_append_singleton (l : List α) (a : α) : position key (l ++ [a]) = key a := by
  simp [position]

theorem key_le_position (h : l.Pairwise (key · < key ·)) {b : α} (hb : b ∈ l) :
    key b ≤ position key l := by
  induction l using List.reverseRecOn with
  | nil => exact nomatch hb
  | append_singleton l a _ =>
    rw [position_append_singleton]
    rcases List.mem_append.1 hb with hb | hb
    · exact Nat.le_of_lt ((List.pairwise_append.1 h).2.2 b hb a (List.mem_singleton_self a))
    · rw [List.mem_singleton.1 hb]

theorem exists_key_eq_position (hpos : position key l ≠ 0) : ∃ b ∈ l, key b = position key l := by
  induction l using List.reverseRecOn with
  | nil => exact absurd rfl hpos
  | append_singleton l a _ => exact ⟨a, by simp, by simp⟩

/-- What was read has no gap among the rows that are live. -/
structure Covers (key : α → ℕ) (live : α → Prop) (l : List α) : Prop where
  sorted : l.Pairwise (key · < key ·)
  closed : ∀ e, live e → ∀ b ∈ l, key e ≤ key b → e ∈ l

namespace Covers

theorem nil : Covers key live [] := ⟨.nil, fun _ _ _ hb => nomatch hb⟩

/-- Rows may go, and rows may come that are after everything read. -/
theorem mono (h : Covers key live l)
    (hlive : ∀ e, live' e → live e ∨ ∀ b ∈ l, key b < key e) : Covers key live' l := by
  refine ⟨h.sorted, fun e he b hb hle => ?_⟩
  rcases hlive e he with he | hnew
  · exact h.closed e he b hb hle
  · exact absurd (hnew b hb) (not_lt.2 hle)

theorem of_append (h : Covers key live (l ++ batch)) : Covers key live l := by
  have hsorted := List.pairwise_append.1 h.sorted
  refine ⟨hsorted.1, fun e he b hb hle => ?_⟩
  rcases List.mem_append.1 (h.closed e he b (List.mem_append_left _ hb) hle) with hl | hbatch
  · exact hl
  · exact absurd (hsorted.2.2 b hb e hbatch) (not_lt.2 hle)

/-- A live row that is not after the position was read. -/
theorem mem_of_le_position (h : Covers key live l) {e : α} (he : live e) (hpos : 0 < key e)
    (hle : key e ≤ position key l) : e ∈ l := by
  obtain ⟨b, hb, hkey⟩ := exists_key_eq_position (Nat.ne_of_gt (Nat.lt_of_lt_of_le hpos hle))
  exact h.closed e he b hb (hkey ▸ hle)

/-- The first rows of a table in order have no gap. -/
theorem take (h : rows.Pairwise (key · < key ·)) (n : ℕ) {e b : α} (he : e ∈ rows)
    (hb : b ∈ rows.take n) (hle : key e ≤ key b) : e ∈ rows.take n := by
  rw [← List.take_append_drop n rows] at h he
  rcases List.mem_append.1 he with he | he
  · exact he
  · exact absurd ((List.pairwise_append.1 h).2.2 b hb e he) (not_lt.2 hle)

/-- Reading the next rows leaves no gap. -/
theorem append_batch (h : Covers key live l) (hrows : rows.Pairwise (key · < key ·))
    (hpos : ∀ e, live e → 0 < key e)
    (hnext : ∀ e, e ∈ rows → position key l < key e)
    (hall : ∀ e, live e → position key l < key e → e ∈ rows) (n : ℕ) :
    Covers key live (l ++ rows.take n) := by
  refine ⟨List.pairwise_append.2 ⟨h.sorted, hrows.sublist (List.take_sublist n rows), ?_⟩, ?_⟩
  · intro a ha b hb
    exact Nat.lt_of_le_of_lt (key_le_position h.sorted ha) (hnext b (List.mem_of_mem_take hb))
  · intro e he b hb hle
    by_cases hold : key e ≤ position key l
    · exact List.mem_append_left _ (h.mem_of_le_position he (hpos e he) hold)
    · have he' := hall e he (not_le.1 hold)
      rcases List.mem_append.1 hb with hb | hb
      · exact absurd (Nat.le_trans hle (key_le_position h.sorted hb)) hold
      · exact List.mem_append_right _ (take hrows n he' hb hle)

/-- When nothing is left to read, everything live was read. -/
theorem mem_of_end (h : Covers key live l) (hpos : ∀ e, live e → 0 < key e)
    (hend : ∀ e, live e → ¬position key l < key e) {e : α} (he : live e) : e ∈ l :=
  h.mem_of_le_position he (hpos e he) (not_lt.1 (hend e he))

end Covers

end Cursor
