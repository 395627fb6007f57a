import Mathlib.Data.List.Basic

/-!
# Reachable states

A system is a set of initial states and a step relation labelled by events. `Reachable.invariant` is
the induction over runs, done once; `Under` keeps the steps that meet a condition on the state before
them, so that a run all of whose steps meet it is a run of another system.
-/

namespace Reach

variable {σ ε : Type*} {init : σ → Prop} {step : σ → ε → σ → Prop}

/-- The states that runs from an initial state lead to. -/
inductive Reachable (init : σ → Prop) (step : σ → ε → σ → Prop) : σ → Prop
  | start {s : σ} (h : init s) : Reachable init step s
  | next {s s' : σ} {e : ε} (h : Reachable init step s) (hs : step s e s') : Reachable init step s'

/-- The steps before which `ok` holds of the state and the event. -/
def Under (ok : σ → ε → Prop) (step : σ → ε → σ → Prop) (s : σ) (e : ε) (s' : σ) : Prop :=
  ok s e ∧ step s e s'

/-- What holds initially and is kept by every step holds in every reachable state. -/
theorem Reachable.invariant {P : σ → Prop} (hinit : ∀ s, init s → P s)
    (hstep : ∀ s e s', P s → step s e s' → P s') {s : σ} (h : Reachable init step s) : P s := by
  induction h with
  | start h => exact hinit _ h
  | next _ hs ih => exact hstep _ _ _ ih hs

/-- A run of a deterministic system, given by its events. -/
theorem reachable_foldl {f : σ → ε → σ} (hf : ∀ s e, step s e (f s e)) {s : σ}
    (h : Reachable init step s) (es : List ε) : Reachable init step (es.foldl f s) := by
  induction es generalizing s with
  | nil => exact h
  | cons e es ih => exact ih (h.next (hf s e))

/-- A run of a system whose steps may be impossible, given by its events. -/
theorem reachable_foldlM {f : σ → ε → Option σ} (hf : ∀ s e s', f s e = some s' → step s e s')
    {s s' : σ} (h : Reachable init step s) (es : List ε) (hrun : es.foldlM f s = some s') :
    Reachable init step s' := by
  induction es generalizing s with
  | nil => exact Option.some.inj hrun ▸ h
  | cons e es ih =>
    rw [List.foldlM_cons] at hrun
    obtain ⟨t, ht, hrun⟩ := Option.bind_eq_some_iff.1 hrun
    exact ih (h.next (hf s e t ht)) hrun

/-- The condition holds before each event of a run. -/
def Along (ok : σ → ε → Prop) (f : σ → ε → σ) : σ → List ε → Prop
  | _, [] => True
  | s, e :: es => ok s e ∧ Along ok f (f s e) es

instance decidableAlong {ok : σ → ε → Prop} [∀ s, DecidablePred (ok s)] (f : σ → ε → σ) :
    (s : σ) → (es : List ε) → Decidable (Along ok f s es)
  | _, [] => isTrue trivial
  | s, e :: es =>
    have : Decidable (Along ok f (f s e) es) := decidableAlong f (f s e) es
    inferInstanceAs (Decidable (ok s e ∧ Along ok f (f s e) es))

theorem along_append {f : σ → ε → σ} {ok : σ → ε → Prop} {s : σ} {es es' : List ε} :
    Along ok f s (es ++ es') ↔ Along ok f s es ∧ Along ok f (es.foldl f s) es' := by
  induction es generalizing s with
  | nil => exact (true_and _).symm.to_iff
  | cons e es ih => exact (and_congr_right fun _ => ih).trans and_assoc.symm

theorem reachable_foldl_under {f : σ → ε → σ} {ok : σ → ε → Prop} (hf : ∀ s e, step s e (f s e)) {s : σ}
    (h : Reachable init (Under ok step) s) {es : List ε} (hes : Along ok f s es) :
    Reachable init (Under ok step) (es.foldl f s) := by
  induction es generalizing s with
  | nil => exact h
  | cons e es ih => exact ih (h.next ⟨hes.1, hf s e⟩) hes.2

end Reach
