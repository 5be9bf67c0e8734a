import Offside.Proofs.Eval.Isolation
/-!
# Numbers that were not lowered

A call evaluates each argument, and if the value is a number that was read and not lowered, it makes one of
it that can be run.  Evaluation can be defined with anything in this place (`meaningWith`).  Then it makes no
difference what is done there, as long as it is not called for: evaluation with any conversion does the same
as evaluation with one that fails, unless that one does fail (`unless_meaningWith`).

In the evaluation of runnable terms it is never called for (`run_meaningWith`).
-/

namespace Offside

namespace Eval

variable {α : Type} {c c' : Term → Except Error Term} {r : Meaning}

/-! ## 1. Evaluation with another conversion

What is done to a number that was not lowered becomes a parameter.  With `lowered` in its place this is
evaluation as it was defined, which is why results about all conversions are results about evaluation. -/

def callWith (c : Term → Except Error Term) (r : Meaning) (func args : Term) : Eval Term := do
  let p ← operandsWith c r func args
  runBody r p.1 p.2

/-- The value of a term: only in calls with arguments something is converted. -/
def evalStepWith (c : Term → Except Error Term) (r : Meaning) (t : Term) : Eval Term :=
  match t with
  | .node (.action .call) _ [f, x] => callWith c r f x
  | t => evalStep r t

/-- Evaluation up to a depth, if `c` is done to numbers that were not lowered. -/
def meaningWith (c : Term → Except Error Term) : Nat → Meaning
  | 0 => meaning 0
  | n + 1 => ⟨evalStepWith c (meaningWith c n), textStep (meaningWith c n)⟩

theorem callWith_lowered (r : Meaning) (func args : Term) :
    callWith lowered r func args = call r func args := by
  rw [call_eq_operands_runBody, callWith, operandsWith_lowered]

theorem evalStepWith_lowered (r : Meaning) (t : Term) : evalStepWith lowered r t = evalStep r t := by
  unfold evalStepWith
  split
  · exact callWith_lowered r _ _
  · rfl

/-- Evaluation is the one of these that lowers such numbers. -/
theorem meaningWith_lowered (n : Nat) : meaningWith lowered n = meaning n := by
  induction n with
  | zero => rfl
  | succ n ih => rw [meaningWith, ih, funext (evalStepWith_lowered _), meaning]

/-- A congruence that respects the conversions respects evaluation with them. -/
theorem Congruence.related_meaningWith {R : ∀ α : Type, Eval α → Eval α → Prop} (hR : Congruence R)
    (hc : ∀ t, R Term (liftM (loweredWith c t) : Eval Term) (liftM (loweredWith c' t) : Eval Term)) :
    ∀ n : Nat, Related R (meaningWith c n) (meaningWith c' n)
  | 0 => ⟨fun _ => hR.throw _, fun _ => hR.throw _⟩
  | n + 1 => by
    have ih := hR.related_meaningWith hc n
    refine ⟨fun t => ?_, (hR.related_step ih).text⟩
    show R Term (evalStepWith c _ t) (evalStepWith c' _ t)
    unfold evalStepWith
    split
    · exact hR.bind (hR.operandsWith hc ih _ _) fun p => hR.inNewFrame (hR.bindAndEnter ih p.1 p.2)
    · exact (hR.related_step ih).eval _

theorem isolates_meaningWith (c : Term → Except Error Term) (n : Nat) : Isolates (meaningWith c n) := by
  have hrelated := congruence_keepsOuter.related_meaningWith
    (fun t => congruence_keepsOuter.lift (loweredWith c t)) n
  exact ⟨fun t => (hrelated.eval t).2, fun t => (hrelated.text t).2⟩

/-! ## 2. A conversion that fails

To fail with an error of one's choice is a way to make visible that the conversion was called for.  As no
failure is ever caught, the failure is then that of the whole run.  So a run that does not end with this error
has never called for the conversion, and any other conversion gives the same run. -/

/-- Unless the second computation fails with this error, both do the same. -/
def Unless (e : Error) (x y : Eval α) : Prop := ∀ w, (y.run w).1 = .error e ∨ x.run w = y.run w

theorem run_inNewFrame_congr {x y : Eval α} {w : World}
    (h : x.run { w with scope := w.scope.enter } = y.run { w with scope := w.scope.enter }) :
    (inNewFrame x).run w = (inNewFrame y).run w := by
  simp only [inNewFrame, ExceptT.run_mk, h]

/-- **Unless a run fails with `e`, it is the same.**  If the second of two rows fails in its first step, it
fails as a whole; otherwise the first steps are the same, and the second ones start alike. -/
theorem congruence_unless (e : Error) : Congruence fun _ x y => Unless e x y where
  pure _ _ := .inr rfl
  throw _ _ := .inr rfl
  bind := by
    intro α β x y f g hxy hfg w
    rw [run_bind, run_bind]
    rcases hxy w with hy | hsame
    · -- the second row fails where its first step does
      rcases hr : y.run w with ⟨s, w'⟩
      rw [hr] at hy
      subst hy
      exact .inl rfl
    · rw [hsame]
      rcases y.run w with ⟨_ | a, w'⟩
      · exact .inr rfl
      · exact hfg a w'
  lookup _ _ := .inr rfl
  update _ _ := .inr rfl
  printLine _ _ := .inr rfl
  runCommand _ _ := .inr rfl
  findMatch _ _ _ := .inr rfl
  inNewFrame := by
    intro α x y hxy w
    rcases hxy { w with scope := w.scope.enter } with hy | hsame
    · exact .inl hy
    · exact .inr (run_inNewFrame_congr hsame)

/-- **Every conversion does as well as one that fails.** -/
theorem unless_meaningWith (c : Term → Except Error Term) (e : Error) (n : Nat) :
    Related (fun _ x y => Unless e x y) (meaningWith c n) (meaningWith (fun _ => .error e) n) := by
  refine (congruence_unless e).related_meaningWith (fun t w => ?_) n
  unfold loweredWith
  split
  · exact .inl rfl
  · exact .inr rfl

/-- It is called for where a name is bound to such a number. -/
example : ((meaningWith (fun _ => .error .wrongKind) 3).eval (.action .call [
    .action .func [.phrase .list [.datum .var (.text "a")], .datum .var (.text "a")],
    .action .array [.datum .var (.text "n")]])).run
      { scope := ({} : Scope Term).set "n" (.word .int "5") } =
    (.error .wrongKind, { scope := ({} : Scope Term).set "n" (.word .int "5") }) := rfl

end Eval

end Offside
