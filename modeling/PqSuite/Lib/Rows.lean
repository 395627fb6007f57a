import Mathlib.Algebra.Group.Nat.Defs
import Mathlib.Algebra.GroupWithZero.Nat
import Mathlib.Data.List.Forall2
import Mathlib.Data.List.Induction
import Mathlib.Data.List.Nodup

/-!
# Tables as lists of rows

A table is a list of rows in the order they were inserted, and a key is a function of a row. This file
has what the statements of a database need: looking a row up by its key, updates that keep the keys,
insertions that are ignored if the key is taken, and sums over the rows.
-/

namespace Rows

variable {ρ κ : Type*} {key : ρ → κ} {l : List ρ} {a : ρ} {k : κ} {f : ρ → ρ}

theorem filter_map_of_key (key : ρ → κ) (f : ρ → ρ) (hf : ∀ r, key (f r) = key r) (p : κ → Bool) :
    (l.map f).filter (p <| key ·) = (l.filter (p <| key ·)).map f := by
  rw [List.filter_map]
  congr 1
  exact List.filter_congr fun r _ => by simp [hf]

theorem map_key (hf : ∀ r, key (f r) = key r) (l : List ρ) : (l.map f).map key = l.map key := by
  rw [List.map_map]
  exact List.map_congr_left fun r _ => hf r

/-- The keys of what rows are turned into are among those of the rows, in their order. -/
theorem keys_filterMap {σ : Type*} {g : ρ → Option σ} {key' : σ → κ}
    (h : ∀ {r s}, g r = some s → key' s = key r) (l : List ρ) :
    ((l.filterMap g).map key').Sublist (l.map key) := by
  induction l with
  | nil => exact .slnil
  | cons r l ih =>
    cases hr : g r with
    | none =>
      rw [List.filterMap_cons_none hr]
      exact ih.cons _
    | some s =>
      rw [List.filterMap_cons_some hr, List.map_cons, List.map_cons, h hr]
      exact ih.cons_cons _

theorem nodup_concat (hl : (l.map key).Nodup) (hnew : ∀ r ∈ l, key r ≠ key a) :
    ((l ++ [a]).map key).Nodup := by
  rw [List.map_append, List.map_singleton, List.nodup_append]
  refine ⟨hl, List.nodup_singleton _, fun k hk k' hk' => ?_⟩
  obtain ⟨r, hr, rfl⟩ := List.mem_map.1 hk
  rw [List.mem_singleton.1 hk']
  exact hnew r hr

variable [DecidableEq κ]

def lookup (key : ρ → κ) (k : κ) (l : List ρ) : Option ρ := l.find? (key · = k)

theorem lookup_eq_some (h : lookup key k l = some a) : a ∈ l ∧ key a = k :=
  ⟨List.mem_of_find?_eq_some h, by simpa using List.find?_some h⟩

theorem lookup_isSome : (lookup key k l).isSome ↔ ∃ a ∈ l, key a = k := by
  simp [lookup, List.find?_isSome]

theorem lookup_eq_none : lookup key k l = none ↔ ∀ a ∈ l, key a ≠ k := by
  simp [lookup, List.find?_eq_none]

theorem lookup_of_mem (hl : (l.map key).Nodup) (ha : a ∈ l) : lookup key (key a) l = some a := by
  induction l with
  | nil => simp at ha
  | cons b l ih =>
    obtain ⟨hb, hl⟩ := List.nodup_cons.1 hl
    rcases List.mem_cons.1 ha with rfl | ha
    · simp [lookup]
    · have hne : key b ≠ key a := fun h => hb (h ▸ List.mem_map_of_mem ha)
      simpa [lookup, hne] using ih hl ha

theorem lookup_append (h : lookup key k l = some a) (l' : List ρ) :
    lookup key k (l ++ l') = some a := by
  rw [lookup, List.find?_append, ← lookup, h, Option.some_or]

theorem lookup_concat (h : lookup key (key a) l = none) : lookup key (key a) (l ++ [a]) = some a := by
  rw [lookup, List.find?_append, ← lookup, h]
  simp

theorem lookup_map (hf : ∀ r, key (f r) = key r) (k : κ) (l : List ρ) :
    lookup key k (l.map f) = (lookup key k l).map f := by
  rw [lookup, List.find?_map, lookup]
  congr 2
  funext r
  simp [hf]

/-! ## Rows that are ignored if their key is taken -/

/-- `INSERT OR IGNORE`. -/
def insertNew (key : ρ → κ) (l : List ρ) (a : ρ) : List ρ :=
  if (lookup key (key a) l).isSome then l else l ++ [a]

/-- The table after rows were inserted one by one: the first with each key. -/
def firsts (key : ρ → κ) (l : List ρ) : List ρ := l.foldl (insertNew key) []

theorem firsts_concat (l : List ρ) (a : ρ) : firsts key (l ++ [a]) = insertNew key (firsts key l) a :=
  List.foldl_concat ..

theorem lookup_insertNew : lookup key k (insertNew key l a) = lookup key k (l ++ [a]) := by
  unfold insertNew
  split_ifs with htaken
  · rw [lookup, lookup, List.find?_append, List.find?_singleton]
    by_cases hk : key a = k
    · subst hk
      rw [← lookup, Option.or_of_isSome htaken]
    · simp [hk]
  · rfl

theorem lookup_firsts (l : List ρ) : lookup key k (firsts key l) = lookup key k l := by
  induction l using List.reverseRecOn with
  | nil => rfl
  | append_singleton l a ih =>
    rw [firsts_concat, lookup_insertNew, lookup, List.find?_append, ← lookup, ih,
      lookup, ← List.find?_append, ← lookup]

theorem nodup_firsts (l : List ρ) : ((firsts key l).map key).Nodup := by
  induction l using List.reverseRecOn with
  | nil => exact List.nodup_nil
  | append_singleton l a ih =>
    rw [firsts_concat, insertNew]
    split_ifs with htaken
    · exact ih
    · exact nodup_concat ih (lookup_eq_none.1 (Option.not_isSome_iff_eq_none.1 htaken))

theorem mem_firsts_iff : a ∈ firsts key l ↔ lookup key (key a) l = some a := by
  rw [← lookup_firsts]
  exact ⟨lookup_of_mem (nodup_firsts l), fun h => (lookup_eq_some h).1⟩

/-- Deleting the rows with some keys is as if they had never been inserted. -/
theorem filter_firsts (key : ρ → κ) (p : κ → Bool) (l : List ρ) :
    (firsts key l).filter (p <| key ·) = firsts key (l.filter (p <| key ·)) := by
  induction l using List.reverseRecOn with
  | nil => rfl
  | append_singleton l a ih =>
    rw [firsts_concat, List.filter_append, insertNew]
    cases hp : p (key a) with
    | false =>
      rw [List.filter_cons_of_neg (by simp [hp]), List.filter_nil, List.append_nil, ← ih]
      split_ifs
      · rfl
      · rw [List.filter_append, List.filter_cons_of_neg (by simp [hp]), List.filter_nil, List.append_nil]
    | true =>
      have htaken : (lookup key (key a) (firsts key (l.filter (p <| key ·)))).isSome =
          (lookup key (key a) (firsts key l)).isSome := by
        rw [Bool.eq_iff_iff, ← ih, lookup_isSome, lookup_isSome]
        constructor
        · rintro ⟨r, hr, hk⟩
          exact ⟨r, (List.mem_filter.1 hr).1, hk⟩
        · rintro ⟨r, hr, hk⟩
          exact ⟨r, List.mem_filter.2 ⟨hr, by rw [hk, hp]⟩, hk⟩
      rw [List.filter_cons_of_pos (by simp [hp]), List.filter_nil, firsts_concat, insertNew, htaken]
      split_ifs
      · exact ih
      · rw [List.filter_append, List.filter_cons_of_pos (by simp [hp]), List.filter_nil, ih]

/-- An update of the rows with one key leaves the rows with another key alone. -/
theorem filter_map_ite_of_ne (key : ρ → κ) (f : ρ → ρ) (hf : ∀ r, key (f r) = key r) {k' : κ}
    (hk : k' ≠ k) (q : ρ → Prop) [DecidablePred q] :
    (l.map fun r => if key r = k ∧ q r then f r else r).filter (key · = k') =
      l.filter (key · = k') := by
  have hkey : ∀ r, key (if key r = k ∧ q r then f r else r) = key r := by
    intro r; split_ifs <;> simp [hf]
  have := filter_map_of_key (l := l) key (fun r => if key r = k ∧ q r then f r else r) hkey (· = k')
  rw [this, List.map_congr_left (g := id), List.map_id]
  intro r hr
  have : key r = k' := by simpa using (List.mem_filter.1 hr).2
  simp [this, hk]

/-- Setting one of the rows that differ in a tag to zero takes its share out of the sum. -/
theorem sum_map_update {τ : Type*} [DecidableEq τ] {tag : ρ → τ} {size : ρ → ℕ} {t : τ}
    (hl : (l.map tag).Nodup) (ha : a ∈ l) (hat : tag a = t) (hf : ∀ r, size (f r) = 0) :
    (l.map size).sum = ((l.map fun r => if tag r = t then f r else r).map size).sum + size a := by
  induction l with
  | nil => simp at ha
  | cons b l ih =>
    obtain ⟨hb, hl⟩ := List.nodup_cons.1 hl
    rcases List.mem_cons.1 ha with rfl | ha
    · have hrest : (l.map fun r => if tag r = t then f r else r) = l := by
        rw [List.map_congr_left (g := id), List.map_id]
        intro r hr
        have hne : tag r ≠ t := fun h => hb ((hat.trans h.symm) ▸ List.mem_map_of_mem hr)
        simp [hne]
      rw [List.map_cons, List.map_cons, List.map_cons, hrest]
      simp [hat, hf, Nat.add_comm]
    · have hne : tag b ≠ t := fun h => hb ((h.trans hat.symm) ▸ List.mem_map_of_mem ha)
      rw [List.map_cons, List.map_cons, List.map_cons]
      simp only [hne, if_false, List.sum_cons, ih hl ha, Nat.add_assoc]

/-- Setting the rows that `q` selects to zero takes at least the share of one of them out of the sum. -/
theorem sum_map_zero_le {size : ρ → ℕ} {q : ρ → Prop} [DecidablePred q] (ha : a ∈ l) (hq : q a)
    (hf : ∀ r, size (f r) = 0) :
    ((l.map fun r => if q r then f r else r).map size).sum + size a ≤ (l.map size).sum := by
  have hless : ∀ r, size (if q r then f r else r) ≤ size r := by
    intro r
    split_ifs
    · rw [hf]
      exact Nat.zero_le _
    · exact Nat.le_refl _
  have hrest : ∀ m : List ρ, ((m.map fun r => if q r then f r else r).map size).sum ≤ (m.map size).sum := by
    intro m
    induction m with
    | nil => exact Nat.le_refl _
    | cons b m ih =>
      have := hless b
      simp only [List.map_cons, List.sum_cons]
      omega
  induction l with
  | nil => simp at ha
  | cons b l ih =>
    rw [List.map_cons, List.map_cons, List.map_cons, List.sum_cons, List.sum_cons]
    rcases List.mem_cons.1 ha with rfl | ha
    · rw [if_pos hq, hf]
      have := hrest l
      omega
    · have := ih ha
      have := hless b
      omega

/-- A database keeps numbers as signed 64-bit ones; below `2 ^ 63` that changes nothing. -/
theorem toInt_toInt64 {n : UInt64} (h : n.toNat < 2 ^ 63) : n.toInt64.toInt = n.toNat := by
  show n.toBitVec.toInt = n.toNat
  rw [BitVec.toInt_eq_toNat_of_lt (by show 2 * n.toNat < 2 ^ 64; omega)]
  rfl

end Rows
