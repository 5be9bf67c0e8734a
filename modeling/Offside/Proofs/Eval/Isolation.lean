import Offside.Proofs.Eval.Congruence
/-!
# Calls do not write to the frames around them

Evaluation writes to the innermost frame only.  Whatever a term is, however deep the calls go that it
makes, and whether it ends with a value or with an error, the frames around the innermost one are at
the end what they were at the start (`isolates_meaning`).

For a call this means that the frame of the caller is safe from the body of the function: the body runs
in a frame of its own, around which that of the caller lies.

* A call without arguments evaluates everything in the new frame, so it leaves the scope as it was.
* A call with arguments evaluates the function and the arguments in the frame of the caller
  (`operands`) and then runs the body.  So the scope at the end is the one that `operands` leaves.

The argument is about computations, not about terms: `KeepsOuter` is closed under everything that
evaluation is made of (`congruence_keepsOuter`), and the depth to which terms are evaluated carries the
induction.
-/

namespace Offside

namespace Eval

variable {α β : Type}

/-! ## 1. Computations that keep the outer frames

The property is closed under doing one thing after the other, and it also holds after a failure, which is why
it is said of the world that is left and not of the result.  A computation in a new frame has more than that:
it leaves the whole scope as it was. -/

/-- The computation leaves the frames around the innermost one as they are, also when it fails. -/
def KeepsOuter (x : Eval α) : Prop := ∀ w : World, (x.run w).2.scope.outer = w.scope.outer

/-- The computation leaves all frames as they are. -/
def KeepsScope (x : Eval α) : Prop := ∀ w : World, (x.run w).2.scope = w.scope

theorem KeepsScope.outer {x : Eval α} (h : KeepsScope x) : KeepsOuter x :=
  fun w => congrArg Scope.outer (h w)

theorem keepsScope_pure (a : α) : KeepsScope (pure a : Eval α) := fun _ => rfl

theorem keepsScope_throw (e : Error) : KeepsScope (throw e : Eval α) := fun _ => rfl

theorem keepsScope_get : KeepsScope (get : Eval World) := fun _ => rfl

/-- A row keeps the outer frames if its steps do, also if the first one fails. -/
theorem KeepsOuter.bind {x : Eval α} {f : α → Eval β} (hx : KeepsOuter x)
    (hf : ∀ a, KeepsOuter (f a)) : KeepsOuter (x >>= f) := by
  intro w
  have hw := hx w
  rw [run_bind]
  rcases hr : x.run w with ⟨r, w'⟩
  rw [hr] at hw
  cases r with
  | ok a => exact (hf a w').trans hw
  | error e => exact hw

theorem keepsOuter_pure (a : α) : KeepsOuter (pure a : Eval α) := (keepsScope_pure a).outer

theorem keepsOuter_throw (e : Error) : KeepsOuter (throw e : Eval α) := (keepsScope_throw e).outer

/-- Bindings go to the innermost frame. -/
theorem keepsOuter_update (bs : List (String × Term)) :
    KeepsOuter (modify fun w => { w with scope := w.scope.update bs } : Eval Unit) := fun _ => rfl

/-- **A new frame protects the whole scope.**  The frame of the caller is one of the outer frames of
the new scope, so a computation that keeps these gives it back. -/
theorem keepsScope_inNewFrame {x : Eval α} (h : KeepsOuter x) : KeepsScope (inNewFrame x) := by
  intro w
  have hw := h { w with scope := w.scope.enter }
  simp only [Scope.enter] at hw
  show (x.run { w with scope := w.scope.enter }).2.scope.leave = w.scope
  simp only [Scope.leave, Scope.enter]
  rw [hw]

/-! ## 2. The parts of evaluation

Nothing that evaluation is made of writes to an outer frame: names are bound in the innermost one, and all
else does not touch the scope.  To make a congruence of this, it is stated as a relation of a computation to
itself. -/

/-- Terms and texts are found without writing to the outer frames. -/
structure Isolates (r : Meaning) : Prop where
  eval : ∀ t, KeepsOuter (r.eval t)
  text : ∀ t, KeepsOuter (r.text t)

theorem keepsOuter_printLine (s : String) : KeepsOuter (printLine s) := fun _ => rfl

theorem keepsOuter_lookup (name : Term) : KeepsOuter (lookup name) := by
  unfold lookup
  split
  · refine keepsScope_get.outer.bind fun w => ?_
    split
    · exact keepsOuter_pure _
    · exact keepsOuter_throw _
  all_goals exact keepsOuter_throw _

/-- A command changes what is outside, not the names. -/
theorem keepsOuter_runCommand (words : List String) : KeepsOuter (runCommand words) := by
  intro w
  rw [run_runCommand]

theorem keepsOuter_findMatch (pattern subject : String) : KeepsOuter (findMatch pattern subject) := by
  intro w
  rw [run_findMatch]

/-- To keep the outer frames is a relation of a computation to itself, and a congruence. -/
theorem congruence_keepsOuter : Congruence fun _ x y => x = y ∧ KeepsOuter x where
  pure a := ⟨rfl, keepsOuter_pure a⟩
  throw e := ⟨rfl, keepsOuter_throw e⟩
  bind := by
    rintro α β x _ f g ⟨rfl, hx⟩ hf
    obtain rfl : f = g := funext fun a => (hf a).1
    exact ⟨rfl, hx.bind fun a => (hf a).2⟩
  lookup name := ⟨rfl, keepsOuter_lookup name⟩
  update bs := ⟨rfl, keepsOuter_update bs⟩
  printLine s := ⟨rfl, keepsOuter_printLine s⟩
  runCommand words := ⟨rfl, keepsOuter_runCommand words⟩
  findMatch pattern subject := ⟨rfl, keepsOuter_findMatch pattern subject⟩
  inNewFrame := by
    rintro α x _ ⟨rfl, hx⟩
    exact ⟨rfl, (keepsScope_inNewFrame hx).outer⟩

variable {r : Meaning}

theorem Isolates.related (h : Isolates r) : Related (fun _ x y => x = y ∧ KeepsOuter x) r r :=
  ⟨fun t => ⟨rfl, h.eval t⟩, fun t => ⟨rfl, h.text t⟩⟩

/-! ## 3. Calls

The operands of a call are evaluated in the frame of the caller and may bind names there.  The body is run in
a frame of its own. -/

theorem keepsOuter_enterBody (h : Isolates r) (f : Term) : KeepsOuter (enterBody r f) :=
  (congruence_keepsOuter.enterBody h.related f).2

theorem keepsScope_runBody (h : Isolates r) (f : Term) (bs : List (String × Term)) :
    KeepsScope (runBody r f bs) :=
  keepsScope_inNewFrame (congruence_keepsOuter.bindAndEnter h.related f bs).2

/-- **The body of a function leaves no trace in the scope of the caller.**  After a call the scope is
the one that the evaluation of its operands leaves. -/
theorem call_scope (h : Isolates r) (func args : Term) (w : World) :
    ((call r func args).run w).2.scope = ((operands r func args).run w).2.scope := by
  rw [call_eq_operands_runBody, run_bind]
  rcases (operands r func args).run w with ⟨p, w'⟩
  cases p with
  | ok p => exact keepsScope_runBody h p.1 p.2 w'
  | error e => rfl

/-- A call without arguments evaluates even the function in the new frame. -/
theorem keepsScope_callBare (h : Isolates r) (x : Term) :
    KeepsScope (inNewFrame do enterBody r (← r.eval x)) :=
  keepsScope_inNewFrame <| (h.eval x).bind fun f => keepsOuter_enterBody h f

/-! ## 4. All of evaluation

The induction on the depth, with the congruence for its step.  What is said about calls in the end is read off
the two parts of a call. -/

/-- One level of evaluation keeps the outer frames if the next one does. -/
theorem isolates_step (h : Isolates r) : Isolates ⟨evalStep r, textStep r⟩ where
  eval t := ((congruence_keepsOuter.related_step h.related).eval t).2
  text t := ((congruence_keepsOuter.related_step h.related).text t).2

/-- Evaluation to any depth keeps the outer frames. -/
theorem isolates_meaning : ∀ n : Nat, Isolates (meaning n)
  | 0 => ⟨fun _ => keepsOuter_throw _, fun _ => keepsOuter_throw _⟩
  | n + 1 => isolates_step (isolates_meaning n)

/-- **Scopes are isolated.**  Evaluation to any depth, and the writing of a value, leave the frames
around the innermost one as they were.  A call without arguments leaves the innermost one as it was,
too, and after a call with arguments it is the one that the evaluation of the operands leaves. -/
theorem scope_isolation (n : Nat) (w : World) :
    (∀ t, (((meaning n).eval t).run w).2.scope.outer = w.scope.outer) ∧
    (∀ t, (((meaning n).text t).run w).2.scope.outer = w.scope.outer) ∧
    (∀ s x, (((meaning n).eval (.node (.action .callBare) s [x])).run w).2.scope = w.scope) ∧
    (∀ s f x, (((meaning (n + 1)).eval (.node (.action .call) s [f, x])).run w).2.scope =
      ((operands (meaning n) f x).run w).2.scope) := by
  refine ⟨fun t => (isolates_meaning n).eval t w, fun t => (isolates_meaning n).text t w, ?_, ?_⟩
  · intro s x
    cases n with
    | zero => rfl
    | succ n => exact keepsScope_callBare (isolates_meaning n) x w
  · intro s f x
    exact call_scope (isolates_meaning n) f x w

end Eval

end Offside
