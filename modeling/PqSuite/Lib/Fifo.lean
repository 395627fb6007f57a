import Mathlib.Data.List.Basic

/-!
# First in, first out

A queue that numbers its elements as they are put, so that two equal elements are told apart. What is
taken has a number above every number taken before, whatever is put or cleared in between: no element is
taken twice, and none before one that was put earlier.
-/

namespace Fifo

universe u

/-- The elements that wait, with their numbers, and the number of the next one. -/
structure Queue (α : Type u) where
  waiting : List (ℕ × α) := []
  next : ℕ := 0

namespace Queue

variable {α : Type u} {q : Queue α} {taken : List ℕ}

def toList (q : Queue α) : List α := q.waiting.map (·.2)

def put (q : Queue α) (as : List α) : Queue α where
  waiting := q.waiting ++ as.zipIdx.map fun x => (q.next + x.2, x.1)
  next := q.next + as.length

def clear (q : Queue α) : Queue α := { q with waiting := [] }

def rest (q : Queue α) : Queue α := { q with waiting := q.waiting.tail }

@[simp] theorem toList_put (q : Queue α) (as : List α) : (q.put as).toList = q.toList ++ as := by
  have has : as.zipIdx.map (fun x => x.1) = as := List.zipIdx_map_fst 0 as
  simp only [toList, put, List.map_append, List.map_map]
  exact congrArg _ has

@[simp] theorem toList_clear (q : Queue α) : q.clear.toList = [] := rfl

@[simp] theorem toList_rest (q : Queue α) : q.rest.toList = q.toList.tail := List.map_tail

/-- The numbers of the elements taken so far and of those that wait, in this order, go up. -/
structure InOrder (q : Queue α) (taken : List ℕ) : Prop where
  increasing : (taken ++ q.waiting.map (·.1)).Pairwise (· < ·)
  below : ∀ n ∈ taken ++ q.waiting.map (·.1), n < q.next

theorem inOrder_empty : InOrder ({} : Queue α) [] := ⟨.nil, by simp⟩

theorem InOrder.put (h : q.InOrder taken) (as : List α) : (q.put as).InOrder taken := by
  have hnew : ((q.put as).waiting.map (·.1)) =
      q.waiting.map (·.1) ++ (List.range as.length).map (q.next + ·) := by
    have hidx : as.zipIdx.map (·.2) = List.range as.length := by
      rw [List.range_eq_range']
      exact List.zipIdx_map_snd 0 as
    rw [← hidx]
    simp only [Queue.put, List.map_append, List.map_map, Function.comp_def]
  have hlater : ∀ n ∈ (List.range as.length).map (q.next + ·), q.next ≤ n ∧ n < q.next + as.length := by
    intro n hn
    obtain ⟨i, hi, rfl⟩ := List.mem_map.1 hn
    have := List.mem_range.1 hi
    omega
  refine ⟨?_, fun n hn => ?_⟩
  · rw [hnew, ← List.append_assoc, List.pairwise_append]
    refine ⟨h.increasing, ?_, fun m hm n hn => ?_⟩
    · exact List.pairwise_map.2 (List.pairwise_lt_range.imp fun hlt => by omega)
    · exact Nat.lt_of_lt_of_le (h.below m hm) (hlater n hn).1
  · show n < q.next + as.length
    rw [hnew, ← List.append_assoc] at hn
    rcases List.mem_append.1 hn with hn | hn
    · have := h.below n hn
      omega
    · exact (hlater n hn).2

theorem InOrder.sublist {w : List (ℕ × α)} (h : q.InOrder taken) (hw : w.Sublist q.waiting) :
    InOrder { q with waiting := w } taken := by
  have hsub : (taken ++ w.map (·.1)).Sublist (taken ++ q.waiting.map (·.1)) :=
    (List.Sublist.refl taken).append (hw.map _)
  exact ⟨h.increasing.sublist hsub, fun n hn => h.below n (hsub.subset hn)⟩

theorem InOrder.clear (h : q.InOrder taken) : q.clear.InOrder taken :=
  h.sublist (List.nil_sublist _)

theorem InOrder.take {n : ℕ} {a : α} (h : q.InOrder taken) (hq : q.waiting.head? = some (n, a)) :
    q.rest.InOrder (taken ++ [n]) := by
  have hcons : q.waiting = (n, a) :: q.waiting.tail := List.eq_cons_of_mem_head? hq
  have heq : taken ++ [n] ++ q.waiting.tail.map (·.1) = taken ++ q.waiting.map (·.1) := by
    rw [hcons]
    simp
  refine ⟨?_, fun m hm => ?_⟩
  · show (taken ++ [n] ++ q.waiting.tail.map (·.1)).Pairwise (· < ·)
    rw [heq]
    exact h.increasing
  · exact h.below m (heq ▸ hm)

theorem InOrder.taken_increasing (h : q.InOrder taken) : taken.Pairwise (· < ·) :=
  (List.pairwise_append.1 h.increasing).1

end Queue

end Fifo
