import Mathlib.Data.List.Nodup
import Mathlib.Data.Int.Order.Basic

/-!
# Pages of a numbered log

The rows of a log are numbered from 1 without gaps, and a reader asks for those from a number on, at most
so many. `IsPage` says what it should be given. A database that keeps the numbers as signed ones sorts the
upper half of them before the lower one: `mergeSort_append` is the order it returns a log in.
-/

namespace Pages

variable {ρ : Type*} {number : ρ → ℕ} {log rows : List ρ} {start limit : ℕ}

/-- The numbers of a log start at 1 and have no gaps. -/
def Numbered (number : ρ → ℕ) (log : List ρ) : Prop := log.map number = List.range' 1 log.length

/-- The rows with a number of at least `start`, in increasing order and without gaps, cut off at `limit`. -/
structure IsPage (number : ρ → ℕ) (log : List ρ) (start limit : ℕ) (rows : List ρ) : Prop where
  stored : ∀ r ∈ rows, r ∈ log ∧ start ≤ number r
  numbers : rows.map number = List.range' start rows.length
  short : rows.length ≤ limit
  complete : rows.length = limit ∨ ∀ r ∈ log, start ≤ number r → r ∈ rows

/-- In rows numbered without gaps, the place of a row and its number go together. -/
theorem number_getElem (h : rows.map number = List.range' start rows.length) {i : ℕ} (hi : i < rows.length) :
    number rows[i] = start + i := by
  have hmap : (rows.map number)[i]? = some (number rows[i]) := by
    rw [List.getElem?_map, List.getElem?_eq_getElem hi, Option.map_some]
  rw [h, List.getElem?_range' hi] at hmap
  have := Option.some.inj hmap
  omega

theorem number_bounds (h : rows.map number = List.range' start rows.length) {r : ρ} (hr : r ∈ rows) :
    start ≤ number r ∧ number r < start + rows.length := by
  have hmem : number r ∈ rows.map number := List.mem_map_of_mem hr
  rwa [h, List.mem_range'_1] at hmem

theorem increasing (h : rows.map number = List.range' start rows.length) :
    rows.Pairwise (number · < number ·) := by
  have hlt : (rows.map number).Pairwise (· < ·) := h ▸ List.pairwise_lt_range'
  exact List.pairwise_map.1 hlt

theorem take_range' (start n k : ℕ) : (List.range' start n).take k = List.range' start (min k n) := by
  refine List.ext_getElem ?_ fun i _ _ => ?_
  · rw [List.length_take, List.length_range', List.length_range']
  · rw [List.getElem_take, List.getElem_range', List.getElem_range']

namespace Numbered

theorem nil : Numbered number [] := rfl

theorem concat (h : Numbered number log) {r : ρ} (hr : number r = log.length + 1) :
    Numbered number (log ++ [r]) := by
  rw [Numbered, List.map_append, h, List.length_append, List.map_singleton, hr, List.length_singleton,
    List.range'_concat, Nat.one_mul, Nat.add_comm 1]

theorem exists_getElem (h : Numbered number log) {r : ρ} (hr : r ∈ log) :
    ∃ i, ∃ hi : i < log.length, log[i] = r ∧ number r = i + 1 := by
  obtain ⟨i, hi, rfl⟩ := List.getElem_of_mem hr
  exact ⟨i, hi, rfl, (number_getElem h hi).trans (Nat.add_comm 1 i)⟩

theorem eq_of_number (h : Numbered number log) {r s : ρ} (hr : r ∈ log) (hs : s ∈ log)
    (heq : number r = number s) : r = s := by
  obtain ⟨i, hi, rfl, hnumber⟩ := h.exists_getElem hr
  obtain ⟨j, hj, rfl, hnumber'⟩ := h.exists_getElem hs
  obtain rfl : i = j := by omega
  rfl

theorem take (h : Numbered number log) (k : ℕ) : Numbered number (log.take k) := by
  rw [Numbered, List.map_take, h, take_range', List.length_take]

theorem map_drop (h : Numbered number log) (k : ℕ) :
    (log.drop k).map number = List.range' (k + 1) (log.drop k).length := by
  rw [List.map_drop, h, List.drop_range', List.length_drop, Nat.mul_one, Nat.add_comm 1]

end Numbered

theorem IsPage.length_eq (h : IsPage number log start limit rows) (hlog : Numbered number log)
    (hstart : 1 ≤ start) : rows.length = min limit (log.length + 1 - start) := by
  have hle : rows.length ≤ log.length + 1 - start := by
    by_cases hpos : 0 < rows.length
    · have hi : rows.length - 1 < rows.length := by omega
      have hnumber := number_getElem h.numbers hi
      have hbound := (number_bounds hlog (h.stored _ (List.getElem_mem hi)).1).2
      omega
    · omega
  have hshort := h.short
  rcases h.complete with hfull | hall
  · omega
  · -- the last row of the log is returned, if the page gets that far
    by_cases hlast : start ≤ log.length
    · have hi : log.length - 1 < log.length := by omega
      have hnumber : number log[log.length - 1] = 1 + (log.length - 1) := number_getElem hlog hi
      have hmem := hall _ (List.getElem_mem hi) (by omega)
      obtain ⟨j, hj, heq⟩ := List.getElem_of_mem hmem
      have hnumber' := number_getElem h.numbers hj
      rw [heq] at hnumber'
      omega
    · omega

/-- The page is the stretch of the log from its start on. -/
theorem isPage_iff (hlog : Numbered number log) (hstart : 1 ≤ start) :
    IsPage number log start limit rows ↔ rows = (log.drop (start - 1)).take limit := by
  constructor
  · intro h
    have hlength := h.length_eq hlog hstart
    refine List.ext_getElem ?_ fun i hi hi' => ?_
    · rw [List.length_take, List.length_drop]
      omega
    · rw [List.getElem_take, List.getElem_drop]
      refine hlog.eq_of_number (h.stored _ (List.getElem_mem hi)).1 (List.getElem_mem _) ?_
      rw [number_getElem h.numbers hi, number_getElem hlog]
      omega
  · rintro rfl
    have hnumbers := hlog.map_drop (start - 1)
    rw [Nat.sub_add_cancel hstart] at hnumbers
    refine ⟨fun r hr => ?_, ?_, List.length_take_le _ _, ?_⟩
    · have hr := List.mem_of_mem_take hr
      exact ⟨List.mem_of_mem_drop hr, (number_bounds hnumbers hr).1⟩
    · rw [List.map_take, hnumbers, take_range', List.length_take]
    · rw [List.length_take]
      by_cases hfits : limit ≤ (log.drop (start - 1)).length
      · exact .inl (Nat.min_eq_left hfits)
      · refine .inr fun r hr hle => ?_
        obtain ⟨i, hi, rfl, hnumber⟩ := hlog.exists_getElem hr
        rw [List.take_of_length_le (by omega)]
        exact List.mem_drop_iff_getElem.2 ⟨i - (start - 1), by omega, by congr 1; omega⟩

/-- The rows from a number on. -/
theorem filter_eq_drop (h : rows.map number = List.range' start rows.length) (n : ℕ) :
    rows.filter (n ≤ number ·) = rows.drop (n - start) := by
  have hsplit : rows.take (n - start) ++ rows.drop (n - start) = rows := List.take_append_drop _ _
  have hbefore : (rows.take (n - start)).filter (n ≤ number ·) = [] := by
    refine List.filter_eq_nil_iff.2 fun r hr => ?_
    obtain ⟨i, hi, rfl⟩ := List.getElem_of_mem hr
    rw [List.length_take] at hi
    rw [List.getElem_take, number_getElem h, decide_eq_true_eq]
    omega
  have hafter : (rows.drop (n - start)).filter (n ≤ number ·) = rows.drop (n - start) := by
    refine List.filter_eq_self.2 fun r hr => ?_
    obtain ⟨i, hi, rfl⟩ := List.getElem_of_mem hr
    rw [List.getElem_drop, number_getElem h, decide_eq_true_eq]
    omega
  calc rows.filter (n ≤ number ·)
      = (rows.take (n - start)).filter (n ≤ number ·) ++ (rows.drop (n - start)).filter (n ≤ number ·) := by
        rw [← List.filter_append, hsplit]
    _ = rows.drop (n - start) := by rw [hbefore, hafter, List.nil_append]

/-- A list whose second part sorts before the first one. -/
theorem mergeSort_append {key : ρ → ℤ} {low high : List ρ} (hlow : low.Pairwise (key · < key ·))
    (hhigh : high.Pairwise (key · < key ·)) (hlt : ∀ r ∈ high, ∀ s ∈ low, key r < key s) :
    (low ++ high).mergeSort (fun r s => key r ≤ key s) = high ++ low := by
  have hsorted : (high ++ low).Pairwise (key · < key ·) := List.pairwise_append.2 ⟨hhigh, hlow, hlt⟩
  have hnodup : ((high ++ low).map key).Nodup := (List.pairwise_map.2 hsorted).imp fun h => Int.ne_of_lt h
  have hperm : ((low ++ high).mergeSort fun r s => key r ≤ key s).Perm (high ++ low) :=
    (List.mergeSort_perm _ _).trans List.perm_append_comm
  have hmerged : ((low ++ high).mergeSort fun r s => key r ≤ key s).Pairwise (key · ≤ key ·) := by
    refine (List.pairwise_mergeSort (fun a b c hab hbc => ?_) (fun a b => ?_) _).imp of_decide_eq_true
    · exact decide_eq_true (Int.le_trans (of_decide_eq_true hab) (of_decide_eq_true hbc))
    · rw [Bool.or_eq_true, decide_eq_true_eq, decide_eq_true_eq]
      exact Int.le_total _ _
  refine List.Perm.eq_of_pairwise (fun r s hr hs hrs hsr => ?_) hmerged (hsorted.imp Int.le_of_lt) hperm
  exact List.inj_on_of_nodup_map hnodup (hperm.subset hr) hs (Int.le_antisymm hrs hsr)

end Pages
