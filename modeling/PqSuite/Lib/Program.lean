import Mathlib.Logic.Relation

/-!
# Programs as sequences of moves

A program with a state and exceptions is described by what it may do to a view of its state: every run
is a sequence of moves of a relation on the view, also one that stops with an exception half-way, and a
run that returns ends with a postcondition. There is one rule for each way to build a program, so that
what every move keeps is kept by every program the rules apply to.
-/

namespace Program

open Relation (ReflTransGen)

universe u v

variable {ε σ α β : Type u} {τ : Type v} {view : σ → τ} {M : τ → τ → Prop} {s : σ}

/-- What every move keeps is kept by a sequence of moves. -/
theorem keep_of_moves {J : τ → Prop} (hkeep : ∀ t t', J t → M t t' → J t') {t t' : τ}
    (hmoves : ReflTransGen M t t') (ht : J t) : J t' := by
  induction hmoves with
  | refl => exact ht
  | tail _ hmove ih => exact hkeep _ _ ih hmove

/-- From `s` the program `x` only makes moves, and if it returns, then with `Q`. -/
def Runs (view : σ → τ) (M : τ → τ → Prop) (s : σ) (x : EStateM ε σ α) (Q : α → σ → Prop) : Prop :=
  match x s with
  | .ok a s' => ReflTransGen M (view s) (view s') ∧ Q a s'
  | .error _ s' => ReflTransGen M (view s) (view s')

/-- The state a run leaves, however it ends. -/
def after (x : EStateM ε σ α) (s : σ) : σ :=
  match x s with
  | .ok _ s' => s'
  | .error _ s' => s'

theorem get_apply (s : σ) : (get : EStateM ε σ σ) s = .ok s s := rfl

theorem set_apply (s s' : σ) : (set s' : EStateM ε σ PUnit) s = .ok ⟨⟩ s' := rfl

theorem modify_apply (f : σ → σ) (s : σ) : (modify f : EStateM ε σ PUnit) s = .ok ⟨⟩ (f s) := rfl

namespace Runs

variable {x : EStateM ε σ α} {f : α → EStateM ε σ β} {Q : α → σ → Prop} {R : β → σ → Prop}

theorem moves (hx : Runs view M s x Q) : ReflTransGen M (view s) (view (after x s)) := by
  unfold Runs at hx
  unfold after
  split at hx
  · exact hx.1
  · exact hx

theorem pure {a : α} (h : Q a s) : Runs view M s (pure a : EStateM ε σ α) Q := ⟨.refl, h⟩

theorem throw {err : ε} : Runs view M s (throw err : EStateM ε σ α) Q := ReflTransGen.refl

theorem bind (hx : Runs view M s x Q)
    (hf : ∀ a s', ReflTransGen M (view s) (view s') → Q a s' → Runs view M s' (f a) R) :
    Runs view M s (x >>= f) R := by
  simp only [Runs, Bind.bind, EStateM.bind] at hx ⊢
  cases hrun : x s with
  | error err s' =>
    rw [hrun] at hx
    exact hx
  | ok a s' =>
    rw [hrun] at hx
    have hrest := hf a s' hx.1 hx.2
    simp only [Runs] at hrest
    dsimp only
    split at hrest
    · exact ⟨hx.1.trans hrest.1, hrest.2⟩
    · exact hx.1.trans hrest

theorem get_bind {f : σ → EStateM ε σ β} (h : Runs view M s (f s) R) :
    Runs view M s (get >>= f) R := h

theorem modify {g : σ → σ} {Q : PUnit → σ → Prop} (hmoves : ReflTransGen M (view s) (view (g s)))
    (h : Q ⟨⟩ (g s)) : Runs view M s (modify g : EStateM ε σ PUnit) Q := ⟨hmoves, h⟩

/-- A loop whose rounds start from states with something that every move keeps. -/
theorem forM {J : τ → Prop} (hkeep : ∀ t t', J t → M t t' → J t') {l : List α}
    {f : α → EStateM ε σ PUnit} (hs : J (view s))
    (hf : ∀ a ∈ l, ∀ s, J (view s) → Runs view M s (f a) fun _ _ => True) :
    Runs view M s (l.forM f) fun _ _ => True := by
  induction l generalizing s with
  | nil => exact .pure trivial
  | cons a l ih =>
    refine (hf a List.mem_cons_self s hs).bind fun _ s' hmoves _ => ?_
    exact ih (keep_of_moves hkeep hmoves hs) fun b hb => hf b (List.mem_cons_of_mem a hb)

end Runs

end Program
