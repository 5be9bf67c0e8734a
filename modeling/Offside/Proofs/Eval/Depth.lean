import Offside.Proofs.Eval.Congruence
import Offside.Proofs.Sequencing
/-!
# Evaluation to a greater depth

Evaluation is defined up to a depth, and where the depth is not enough it is cut short.  Nothing in the
language can tell: an evaluation that was cut short fails, no failure is ever caught, and so whatever
comes to an end without being cut short comes to the same end with more depth (`approximates_of_le`).

This makes it possible to compare terms of different depths.  One computation approximates another one if
both do the same wherever the first one is not cut short (`Approximates`).
-/

namespace Offside

namespace Eval

variable {α β : Type}

/-! ## 1. Approximations

A computation that is cut short fails with an error of its own.  The relation is not symmetric: of the second
computation nothing is said where the first one was cut short.  It is a congruence, and the only case with an
argument in it is that of two steps in a row. -/

/-- Wherever the first computation is not cut short, both come to the same result and the same world. -/
def Approximates (α : Type) (x y : Eval α) : Prop :=
  ∀ w : World, (x.run w).1 = .error .recursion ∨ x.run w = y.run w

theorem approximates_refl (x : Eval α) : Approximates α x x := fun _ => .inr rfl

/-- What is always cut short approximates everything. -/
theorem approximates_recursion (y : Eval α) : Approximates α (throw .recursion) y := fun _ => .inl rfl

/-- If the first step is cut off, the row is.  Otherwise both rows go on from the same world. -/
theorem Approximates.bind {x y : Eval α} {f g : α → Eval β} (h : Approximates α x y)
    (hf : ∀ a, Approximates β (f a) (g a)) : Approximates β (x >>= f) (y >>= g) := by
  intro w
  rw [run_bind, run_bind]
  rcases hx : x.run w with ⟨r, w'⟩
  rcases h w with hcut | hsame
  · rw [hx] at hcut
    obtain rfl : r = .error .recursion := hcut
    exact .inl rfl
  · rw [← hsame, hx]
    cases r with
    | ok a => exact hf a w'
    | error e => exact .inr rfl

theorem Approximates.inNewFrame {x y : Eval α} (h : Approximates α x y) :
    Approximates α (inNewFrame x) (inNewFrame y) := by
  intro w
  simp only [Eval.inNewFrame, ExceptT.run, ExceptT.mk]
  rcases h { w with scope := w.scope.enter } with hcut | hsame
  · exact .inl hcut
  · simp only [ExceptT.run] at hsame
    exact .inr (by rw [hsame])

/-- The steps of evaluation that do not go deeper are the same at every depth. -/
theorem congruence_approximates : Congruence Approximates where
  pure a := approximates_refl (pure a)
  throw e := approximates_refl (throw e)
  bind := Approximates.bind
  lookup name := approximates_refl (lookup name)
  update _ := approximates_refl _
  printLine s := approximates_refl (printLine s)
  runCommand words := approximates_refl (runCommand words)
  findMatch pattern subject := approximates_refl (findMatch pattern subject)
  inNewFrame := Approximates.inNewFrame

/-! ## 2. Depths

At depth 0 everything is cut short, and this approximates everything.  From one depth to the next it is the
congruence that carries the relation over. -/

/-- Nothing has a value at depth 0, and nothing has a text. -/
theorem pos_of_run_ok {n : Nat} {e v : Term} {w w' : World}
    (h : ((meaning n).eval e).run w = (.ok v, w')) : ∃ m, n = m + 1 := by
  cases n with
  | zero => cases h
  | succ m => exact ⟨m, rfl⟩

theorem pos_of_run_text_ok {n : Nat} {t : Term} {s : String} {w w' : World}
    (h : ((meaning n).text t).run w = (.ok s, w')) : ∃ m, n = m + 1 := by
  cases n with
  | zero => cases h
  | succ m => exact ⟨m, rfl⟩

/-- **More depth changes nothing but what was cut short.** -/
theorem approximates_of_le {n m : Nat} (h : n ≤ m) : Related Approximates (meaning n) (meaning m) := by
  induction n generalizing m with
  | zero => exact ⟨fun _ => approximates_recursion _, fun _ => approximates_recursion _⟩
  | succ n ih =>
    obtain ⟨m, rfl⟩ : ∃ k, m = k + 1 := ⟨m - 1, by omega⟩
    exact congruence_approximates.related_step (ih (by omega))

/-! ## 3. Names

What a bound name stands for, and what is bound by an assignment.  A name takes one level, and an assignment
one level more than its right side.  Programs of every class are made of these, so the sites of the terms are
left open. -/

variable {w w' : World}

theorem run_lookup {x : String} {v : Term} (h : w.scope.get? x = some v) :
    (lookup (.text x)).run w = (.ok v, w) := by
  simp only [lookup]
  rw [run_get_bind, h]
  rfl

/-- The value of a name is what it is bound to. -/
theorem run_var {x : String} {v : Term} (h : w.scope.get? x = some v) (n : Nat) (site : Site) :
    ((meaning (n + 1)).eval (.leaf (.datum .var) site (.text x))).run w = (.ok v, w) :=
  run_lookup h

/-- To assign is to evaluate, to bind and to give back the value. -/
theorem eval_assign (n : Nat) (s s' : Site) (x : String) (t : Term) :
    (meaning (n + 1)).eval (.node (.action .assign) s [.leaf (.datum .var) s' (.text x), t]) = (do
      let v ← (meaning n).eval t
      assign (.text x) v
      return v) := rfl

/-- An assignment evaluates its right side and binds the name to the value. -/
theorem run_assign {n : Nat} {t v : Term} (h : ((meaning n).eval t).run w = (.ok v, w')) (s s' : Site)
    (x : String) :
    ((meaning (n + 1)).eval (.node (.action .assign) s [.leaf (.datum .var) s' (.text x), t])).run w =
      (.ok v, { w' with scope := w'.scope.set x v }) := by
  rw [eval_assign, run_bind_of_ok h]
  rfl

/-- If the right side fails, nothing is bound. -/
theorem run_assign_error {n : Nat} {t : Term} {e : Error} (h : ((meaning n).eval t).run w = (.error e, w'))
    (s s' : Site) (x : String) :
    ((meaning (n + 1)).eval (.node (.action .assign) s [.leaf (.datum .var) s' (.text x), t])).run w =
      (.error e, w') := by
  rw [eval_assign, run_bind, h]

end Eval

end Offside
