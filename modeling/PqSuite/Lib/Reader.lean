import Mathlib.Data.List.Basic

/-!
# Readers of a sequence

A reader takes what it reads off the front of a sequence and fails or returns it with what is left.
`Reads r xs a` says that `r` takes exactly `xs` and returns `a`, whatever follows; its rules show
field by field that the reader of a format undoes the writer. `Exact r ok w` says more: whatever `r`
takes is what `w` writes of the value returned, so that a value has one spelling only. `Takes r W` is
the same for a writer that may fail.
-/

namespace PqSuite

/-- A function from the sequence that is left to a result and the sequence left after it. -/
abbrev Reader (τ : Type) := StateT (List τ) Option

namespace Reader

variable {τ α β : Type} {r : Reader τ α} {xs ys : List τ} {a : α} {b : β} {ε : Type}

/-- Whatever follows, `r` takes exactly `xs` and returns `a`. -/
def Reads (r : Reader τ α) (xs : List τ) (a : α) : Prop :=
  ∀ rest, r.run (xs ++ rest) = some (a, rest)

def many : ℕ → Reader τ α → Reader τ (List α)
  | 0, _ => pure []
  | n + 1, r => do
    let a ← r
    let rest ← many n r
    return a :: rest

theorem reads_pure (a : α) : Reads (pure a : Reader τ α) [] a := fun _ => rfl

theorem Reads.bind {f : α → Reader τ β} (h : Reads r xs a) (hf : Reads (f a) ys b) :
    Reads (r >>= f) (xs ++ ys) b := by
  intro rest
  rw [List.append_assoc, StateT.run_bind, h]
  exact hf rest

theorem Reads.last {f : α → Reader τ β} (h : Reads r xs a) (hf : Reads (f a) [] b) :
    Reads (r >>= f) xs b := by
  have := h.bind hf
  rwa [List.append_nil] at this

theorem Reads.check {p : Prop} [Decidable p] {f : Unit → Reader τ β} (h : p)
    (hf : Reads (f ()) ys b) : Reads ((guard p : Reader τ Unit) >>= f) ys b := by
  intro rest
  rw [guard, if_pos h]
  exact hf rest

/-- A value that may be missing takes nothing. -/
theorem reads_lift {o : Option α} (h : o = some a) : Reads (StateT.lift o : Reader τ α) [] a := by
  subst h
  exact fun _ => rfl

theorem reads_many {parts : List (List τ)} {items : List α}
    (h : List.Forall₂ (fun part a => Reads r part a) parts items) :
    Reads (many items.length r) parts.flatten items := by
  induction h with
  | nil => exact reads_pure []
  | cons h _ ih => exact h.bind (ih.last (reads_pure _))

theorem Reads.run_eq (h : Reads r xs a) : r.run xs = some (a, []) := by
  simpa only [List.append_nil] using h []

/-! ## One spelling for each value -/

/-- `r` returns the values that are `ok`, each for what `w` writes of it and for nothing else. -/
def Exact (r : Reader τ α) (ok : α → Prop) (w : α → List τ) : Prop :=
  ∀ xs a rest, r.run xs = some (a, rest) ↔ ok a ∧ xs = w a ++ rest

variable {ok : α → Prop} {w : α → List τ} {rest : List τ}

/-- A field is taken off the front, and what follows it is read next. -/
theorem Exact.bind_eq_some (h : Exact r ok w) {f : α × List τ → Option β} :
    (r.run xs >>= f) = some b ↔ ∃ a rest, ok a ∧ xs = w a ++ rest ∧ f (a, rest) = some b := by
  rw [Option.bind_eq_bind, Option.bind_eq_some_iff]
  constructor
  · rintro ⟨⟨a, rest⟩, hr, hf⟩
    obtain ⟨ha, hxs⟩ := (h xs a rest).1 hr
    exact ⟨a, rest, ha, hxs, hf⟩
  · rintro ⟨a, rest, ha, hxs, hf⟩
    exact ⟨(a, rest), (h xs a rest).2 ⟨ha, hxs⟩, hf⟩

theorem Exact.many (h : Exact r ok w) (n : ℕ) :
    Exact (many n r) (fun as => as.length = n ∧ ∀ a ∈ as, ok a) (·.flatMap w) := by
  induction n with
  | zero =>
    intro xs as rest
    constructor
    · intro hrun
      obtain ⟨rfl, rfl⟩ := Prod.mk.inj (Option.some.inj hrun)
      exact ⟨⟨rfl, by simp⟩, rfl⟩
    · rintro ⟨⟨hlen, -⟩, rfl⟩
      obtain rfl := List.length_eq_zero_iff.1 hlen
      rfl
  | succ n ih =>
    intro xs as rest
    rw [Reader.many, StateT.run_bind, h.bind_eq_some]
    constructor
    · rintro ⟨a, r₁, ha, rfl, hrun⟩
      rw [StateT.run_bind, ih.bind_eq_some] at hrun
      obtain ⟨bs, r₂, ⟨hlen, hbs⟩, rfl, hrun⟩ := hrun
      obtain ⟨rfl, rfl⟩ := Prod.mk.inj (Option.some.inj hrun)
      refine ⟨⟨by rw [List.length_cons, hlen], ?_⟩, by simp⟩
      exact List.forall_mem_cons.2 ⟨ha, hbs⟩
    · rintro ⟨⟨hlen, hok⟩, rfl⟩
      obtain ⟨a, bs, rfl⟩ := List.exists_cons_of_length_eq_add_one hlen
      obtain ⟨ha, hbs⟩ := List.forall_mem_cons.1 hok
      refine ⟨a, bs.flatMap w ++ rest, ha, by simp, ?_⟩
      rw [StateT.run_bind, ih.bind_eq_some]
      exact ⟨bs, rest, ⟨Nat.succ.inj hlen, hbs⟩, rfl, rfl⟩

theorem Exact.pair {r' : Reader τ β} {ok' : β → Prop} {w' : β → List τ} (h : Exact r ok w)
    (h' : Exact r' ok' w') :
    Exact (do let a ← r; let b ← r'; return (a, b)) (fun p => ok p.1 ∧ ok' p.2)
      (fun p => w p.1 ++ w' p.2) := by
  rintro xs ⟨a, b⟩ rest
  rw [StateT.run_bind, h.bind_eq_some]
  constructor
  · rintro ⟨a', r₁, ha, rfl, hrun⟩
    rw [StateT.run_bind, h'.bind_eq_some] at hrun
    obtain ⟨b', r₂, hb, rfl, hrun⟩ := hrun
    obtain ⟨hab, rfl⟩ := Prod.mk.inj (Option.some.inj hrun)
    obtain ⟨rfl, rfl⟩ := Prod.mk.inj hab
    exact ⟨⟨ha, hb⟩, by simp⟩
  · rintro ⟨⟨ha, hb⟩, rfl⟩
    refine ⟨a, w' b ++ rest, ha, by simp, ?_⟩
    rw [StateT.run_bind, h'.bind_eq_some]
    exact ⟨b, rest, hb, rfl, rfl⟩

/-- Two written values can be told apart whatever follows them. -/
theorem Exact.append_inj (h : Exact r ok w) {a b : α} {xs ys : List τ} (ha : ok a) (hb : ok b)
    (heq : w a ++ xs = w b ++ ys) : a = b ∧ xs = ys := by
  have hread := (h _ a xs).2 ⟨ha, rfl⟩
  rw [heq, (h _ b ys).2 ⟨hb, rfl⟩] at hread
  obtain ⟨rfl, rfl⟩ := Prod.mk.inj (Option.some.inj hread)
  exact ⟨rfl, rfl⟩

/-- Nor does a list need its length written, if no value is written as nothing. -/
theorem Exact.flatMap_inj (h : Exact r ok w) (hne : ∀ a, w a ≠ []) {as bs : List α}
    (has : ∀ a ∈ as, ok a) (hbs : ∀ b ∈ bs, ok b) (heq : as.flatMap w = bs.flatMap w) : as = bs := by
  induction as generalizing bs with
  | nil =>
    cases bs with
    | nil => rfl
    | cons b bs =>
      rw [List.flatMap_nil, List.flatMap_cons] at heq
      exact absurd (List.append_eq_nil_iff.1 heq.symm).1 (hne b)
  | cons a as ih =>
    obtain ⟨ha, has⟩ := List.forall_mem_cons.1 has
    cases bs with
    | nil =>
      rw [List.flatMap_nil, List.flatMap_cons] at heq
      exact absurd (List.append_eq_nil_iff.1 heq).1 (hne a)
    | cons b bs =>
      rw [List.flatMap_cons, List.flatMap_cons] at heq
      obtain ⟨rfl, hrest⟩ := h.append_inj ha (List.forall_mem_cons.1 hbs).1 heq
      rw [ih has (List.forall_mem_cons.1 hbs).2 hrest]

/-! ## What a run has taken -/

/-- What `r` takes stands in `W` to the value it returns. -/
def Takes (r : Reader τ α) (W : α → List τ → Prop) : Prop :=
  ∀ xs a rest, r.run xs = some (a, rest) → ∃ part, xs = part ++ rest ∧ W a part

section

variable {W : α → List τ → Prop} {f : α → Reader τ β}

theorem Takes.of_run (h : Takes r W) (hrun : (r >>= f).run xs = some (b, rest)) :
    ∃ a part mid, W a part ∧ xs = part ++ mid ∧ (f a).run mid = some (b, rest) := by
  rw [StateT.run_bind, Option.bind_eq_bind, Option.bind_eq_some_iff] at hrun
  obtain ⟨⟨a, mid⟩, hr, hf⟩ := hrun
  obtain ⟨part, hxs, hW⟩ := h xs a mid hr
  exact ⟨a, part, mid, hW, hxs, hf⟩

theorem Exact.of_run (h : Exact r ok w) (hrun : (r >>= f).run xs = some (b, rest)) :
    ∃ a mid, ok a ∧ xs = w a ++ mid ∧ (f a).run mid = some (b, rest) := by
  rw [StateT.run_bind, h.bind_eq_some] at hrun
  exact hrun

theorem Exact.takes (h : Exact r ok w) : Takes r (fun a part => ok a ∧ part = w a) := by
  intro xs a rest hrun
  obtain ⟨ha, hxs⟩ := (h xs a rest).1 hrun
  exact ⟨w a, hxs, ha, rfl⟩

/-- A check that was passed took nothing. -/
theorem of_run_check {p : Prop} [Decidable p] {f : Unit → Reader τ β}
    (hrun : ((guard p : Reader τ Unit) >>= f).run xs = some (b, rest)) :
    p ∧ (f ()).run xs = some (b, rest) := by
  by_cases hp : p
  · rw [guard, if_pos hp] at hrun
    exact ⟨hp, hrun⟩
  · rw [guard, if_neg hp] at hrun
    cases hrun

theorem of_run_lift {o : Option α}
    (hrun : ((StateT.lift o : Reader τ α) >>= f).run xs = some (b, rest)) :
    ∃ a, o = some a ∧ (f a).run xs = some (b, rest) := by
  cases o with
  | none => cases hrun
  | some a => exact ⟨a, rfl, hrun⟩

theorem of_run_pure {a' : α} (hrun : (pure a : Reader τ α).run xs = some (a', rest)) :
    a = a' ∧ xs = rest :=
  Prod.mk.inj (Option.some.inj hrun)

theorem Takes.many (h : Takes r W) (n : ℕ) :
    Takes (many n r) (fun as whole =>
      as.length = n ∧ ∃ parts, whole = parts.flatten ∧ List.Forall₂ W as parts) := by
  induction n with
  | zero =>
    intro xs as rest hrun
    obtain ⟨rfl, rfl⟩ := of_run_pure hrun
    exact ⟨[], rfl, rfl, [], rfl, .nil⟩
  | succ n ih =>
    intro xs as rest hrun
    obtain ⟨a, part, mid, hpart, rfl, hmany⟩ := h.of_run hrun
    obtain ⟨as', _, mid', ⟨hlen, parts, rfl, hparts⟩, rfl, hpure⟩ := ih.of_run hmany
    obtain ⟨rfl, rfl⟩ := of_run_pure hpure
    refine ⟨part ++ parts.flatten, (List.append_assoc ..).symm, by rw [List.length_cons, hlen], ?_⟩
    exact ⟨part :: parts, rfl, .cons hpart hparts⟩

end

/-- A writer that may fail has failed nowhere if it has not failed. -/
theorem exists_of_bind_eq_ok {x : Except ε α} {f : α → Except ε β} (h : (x >>= f) = .ok b) :
    ∃ a, x = .ok a ∧ f a = .ok b := by
  cases x with
  | error e => exact nomatch h
  | ok a => exact ⟨a, rfl, h⟩

/-- `parse` gives back what `write` wrote of the values that are `ok`, and returns such a value for
nothing but what `write` writes of it. -/
structure Undoes (parse : List τ → Option α) (write : α → Except ε (List τ)) (ok : α → Prop) :
    Prop where
  reads : ∀ a xs, ok a → write a = .ok xs → parse xs = some a
  writes : ∀ xs a, parse xs = some a → ok a ∧ write a = .ok xs

theorem Undoes.parse_eq_some_iff {parse : List τ → Option α} {write : α → Except ε (List τ)}
    (h : Undoes parse write ok) (hwrite : write a = .ok xs) : parse xs = some a ↔ ok a :=
  ⟨fun hparse => (h.writes xs a hparse).1, fun ha => h.reads a xs ha hwrite⟩

end Reader

end PqSuite
