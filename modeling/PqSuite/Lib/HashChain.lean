import Mathlib.Data.Set.Function
import Mathlib.Data.List.Basic

/-!
# Hash chains with content that may be taken out

A chain is a list of items, each with a hash and, unless it was taken out, a content. The hash of an
item that still has its content is computed by `link` from the hash before it and that content; the
hash of an item without content is only carried along. `Linked.eq_of_endHash_eq` is the binding
argument, from the common end backwards; it stops at the first item whose content is gone.
-/

namespace HashChain

variable {H C : Type*}

/-- One item of a chain: its hash, and its content unless that was taken out. -/
structure Item (H C : Type*) where
  hash : H
  content : Option C

/-- The hash of each item that still has its content follows from the hash before it. -/
def Linked (link : H → C → H) : H → List (Item H C) → Prop
  | _, [] => True
  | h, e :: es => (∀ c, e.content = some c → e.hash = link h c) ∧ Linked link e.hash es

/-- The hash a chain that starts from `h` ends at. -/
def endHash : H → List (Item H C) → H
  | h, [] => h
  | _, e :: es => endHash e.hash es

/-- The pairs of previous hash and content that the items with content were hashed from. -/
def links : H → List (Item H C) → List (H × C)
  | _, [] => []
  | h, e :: es => (e.content.toList.map fun c => (h, c)) ++ links e.hash es

variable {link : H → C → H} {h h' : H} {as bs : List (Item H C)} {e : Item H C}

@[simp] theorem endHash_nil : endHash h ([] : List (Item H C)) = h := rfl

@[simp] theorem endHash_append (as bs : List (Item H C)) :
    endHash h (as ++ bs) = endHash (endHash h as) bs := by
  induction as generalizing h with
  | nil => rfl
  | cons a as ih => exact ih

theorem linked_append :
    Linked link h (as ++ bs) ↔ Linked link h as ∧ Linked link (endHash h as) bs := by
  induction as generalizing h with
  | nil => simp [Linked]
  | cons a as ih => simp only [List.cons_append, Linked, ih, endHash, and_assoc]

theorem links_append (as bs : List (Item H C)) :
    links h (as ++ bs) = links h as ++ links (endHash h as) bs := by
  induction as generalizing h with
  | nil => rfl
  | cons a as ih => simp only [List.cons_append, links, ih, endHash, List.append_assoc]

theorem exists_content_of_mem_links {x : H × C} (hx : x ∈ links h as) :
    ∃ e ∈ as, e.content = some x.2 := by
  induction as generalizing h with
  | nil => simp [links] at hx
  | cons a as ih =>
    rcases List.mem_append.1 hx with hx | hx
    · obtain ⟨c, hc, rfl⟩ := List.mem_map.1 hx
      exact ⟨a, by simp, Option.mem_toList.1 hc⟩
    · obtain ⟨e, he, hce⟩ := ih hx
      exact ⟨e, by simp [he], hce⟩

/-- Two linked chains of one length with every content present that end at the same hash are the
same chain from the same start, if linking is injective on what they hashed. -/
theorem Linked.eq_of_endHash_eq (ha : Linked link h as) (hb : Linked link h' bs)
    (hlen : as.length = bs.length)
    (hac : ∀ e ∈ as, e.content.isSome) (hbc : ∀ e ∈ bs, e.content.isSome)
    (hinj : Set.InjOn (fun x : H × C => link x.1 x.2)
      {x | x ∈ links h as ∨ x ∈ links h' bs})
    (hend : endHash h as = endHash h' bs) : h = h' ∧ as = bs := by
  -- induction from the front: the tails agree by induction, which gives the heads' hashes
  induction as generalizing h h' bs with
  | nil =>
    obtain rfl : bs = [] := List.length_eq_zero_iff.1 hlen.symm
    exact ⟨hend, rfl⟩
  | cons a as ih =>
    obtain _ | ⟨b, bs⟩ := bs
    · simp at hlen
    obtain ⟨ca, hca⟩ := Option.isSome_iff_exists.1 (hac a (by simp))
    obtain ⟨cb, hcb⟩ := Option.isSome_iff_exists.1 (hbc b (by simp))
    have hsub : Set.InjOn (fun x : H × C => link x.1 x.2)
        {x | x ∈ links a.hash as ∨ x ∈ links b.hash bs} := by
      refine hinj.mono ?_
      rintro x (hx | hx)
      · exact Or.inl (List.mem_append_right _ hx)
      · exact Or.inr (List.mem_append_right _ hx)
    obtain ⟨hhash, rfl⟩ := ih ha.2 hb.2 (by simpa using hlen)
      (fun e he => hac e (by simp [he])) (fun e he => hbc e (by simp [he])) hsub hend
    have hlink : link h ca = link h' cb := by
      rw [← ha.1 ca hca, ← hb.1 cb hcb, hhash]
    have hpair : (h, ca) = (h', cb) :=
      hinj (Or.inl (by simp [links, hca])) (Or.inr (by simp [links, hcb])) hlink
    obtain ⟨rfl, rfl⟩ := Prod.mk.inj hpair
    obtain ⟨hash, content⟩ := a
    obtain ⟨hash', content'⟩ := b
    simp_all

end HashChain
