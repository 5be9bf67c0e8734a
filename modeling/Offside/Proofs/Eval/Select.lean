import Offside.Proofs.Eval.Depth
/-!
# A match is a chain of conditionals

A match goes through its arms until a condition is true.  Conditionals that are nested, each one in the
last place of the one before, do the same.  The two are defined apart: a match asks each arm for an answer
that says whether the arm was taken, and a conditional goes on to one of two terms.

Both are compared with a third computation that has neither arms nor nesting (`firstTrue`): it evaluates
the conditions in order, and the result of the first one that is true.

* A match is that computation, two levels further down (`eval_selectOf`).
* A chain of conditionals takes one more level for each of its conditions, so here evaluation at different
  depths has to be compared.  The chain is approximated by the computation and approximates it.

What a match does not evaluate is then read off the computation: the conditions before the first true one
are evaluated, and the result of that one, and nothing else (`run_firstTrue`).
-/

namespace Offside

namespace Eval

/-! ## 1. Matches and chains

The two kinds of terms, and between them the computation that both are compared with: conditions are evaluated
in order, up to the first one that is true. -/

/-- An arm of a match. -/
structure Branch where
  condition : Term
  result : Term

namespace Branch

def term (b : Branch) : Term := .action .ifThen [b.condition, b.result]

/-- The arm that is taken if no other one is. -/
def otherwise (d : Term) : Branch := ⟨.datum .alwaysTrue (.text "_"), d⟩

end Branch

/-- A match with these arms, and one more that is always taken. -/
def selectOf (bs : List Branch) (d : Term) : Term :=
  .action .select [.action .block (bs.map Branch.term ++ [(Branch.otherwise d).term])]

/-- Conditionals, each in the last place of the one before. -/
def chainOf : List Branch → Term → Term
  | [], d => d
  | b :: bs, d => .action .ifElse [b.condition, b.result, chainOf bs d]

/-- Evaluates conditions in order, up to the first one that is true, and its result. -/
def firstTrue (r : Meaning) : List Branch → Term → Eval Term
  | [], d => r.eval d
  | b :: bs, d => do
    if ← (← r.eval b.condition).truth then r.eval b.result else firstTrue r bs d

/-! ## 2. Matches

A match evaluates its arms as terms, and an arm is a condition and a result in one.  So the conditions are
evaluated two levels below the match, and all of them at the same depth. -/

/-- **One arm.**  It is evaluated one level deeper than the selection: first its condition, and then its
result if the condition counts as true, and otherwise the arms after it are tried. -/
theorem firstArm_term (n : Nat) (b : Branch) (ts : List Term) :
    firstArm (meaning (n + 1)) (b.term :: ts) = (do
      if ← (← (meaning n).eval b.condition).truth then (meaning n).eval b.result
      else firstArm (meaning (n + 1)) ts) := by
  have harm : (meaning (n + 1)).eval b.term = (do
      if ← (← (meaning n).eval b.condition).truth then
        return .arm true (← (meaning n).eval b.result)
      else return .arm false (.number 0)) := rfl
  rw [Branch.term, Term.action, firstArm]
  rw [Branch.term, Term.action] at harm
  rw [harm, bind_assoc]
  congr
  funext v
  rw [bind_assoc]
  congr
  funext taken
  cases taken with
  | true => simp
  | false => simp

/-- The last arm is taken without further ado. -/
theorem firstArm_otherwise (n : Nat) (d : Term) :
    firstArm (meaning (n + 1)) [(Branch.otherwise d).term] = (meaning n).eval d := by
  rw [firstArm_term]
  cases n with
  | zero => rfl
  | succ n => rfl

/-- A match goes through its arms two levels further down. -/
theorem eval_selectOf (n : Nat) (bs : List Branch) (d : Term) :
    (meaning (n + 2)).eval (selectOf bs d) = firstTrue (meaning n) bs d := by
  have harms : (meaning (n + 2)).eval (selectOf bs d) =
      firstArm (meaning (n + 1)) (bs.map Branch.term ++ [(Branch.otherwise d).term]) := rfl
  rw [harms]
  induction bs with
  | nil => exact firstArm_otherwise n d
  | cons b bs ih =>
    rw [List.map_cons, List.cons_append, firstArm_term, firstTrue, ih]
    rfl

/-! ## 3. Chains

In a chain each conditional stands one level below the one before it, so no depth is the same for all
conditions.  Hence there are two statements, one for each direction, with different depths, and both rest on
the fact that more depth changes nothing but what was cut short. -/

/-- One level for each condition is enough for a chain. -/
theorem firstTrue_approximates (n : Nat) (bs : List Branch) (d : Term) :
    Approximates Term (firstTrue (meaning n) bs d) ((meaning (n + bs.length)).eval (chainOf bs d)) := by
  induction bs with
  | nil => exact approximates_refl _
  | cons b bs ih =>
    have hle := approximates_of_le (Nat.le_add_right n bs.length)
    refine (hle.eval b.condition).bind fun v => ?_
    refine (approximates_refl _).bind fun taken => ?_
    cases taken with
    | true => exact hle.eval b.result
    | false => exact ih

/-- The conditions of a chain are evaluated deeper and deeper down, which makes no difference unless the
chain is cut short. -/
theorem chainOf_approximates (bs : List Branch) (d : Term) {n m : Nat} (h : n ≤ m) :
    Approximates Term ((meaning n).eval (chainOf bs d)) (firstTrue (meaning m) bs d) := by
  induction bs generalizing n with
  | nil => exact (approximates_of_le h).eval d
  | cons b bs ih =>
    cases n with
    | zero => exact approximates_recursion _
    | succ n =>
      have hle : n ≤ m := Nat.le_of_succ_le h
      refine ((approximates_of_le hle).eval b.condition).bind fun v => ?_
      refine (approximates_refl _).bind fun taken => ?_
      cases taken with
      | true => exact (approximates_of_le hle).eval b.result
      | false => exact ih hle

/-! ## 4. What is evaluated

A condition may bind names or print, so the world in which the result of an arm is evaluated is the one that
all conditions up to this arm leave. `Fail` follows it. -/

/-- Evaluated in order, these conditions are all false. -/
inductive Fail (r : Meaning) : List Term → World → World → Prop where
  | nil (w : World) : Fail r [] w w
  | cons {c v : Term} {cs : List Term} {w w₁ w₂ : World} (h : (r.eval c).run w = (.ok v, w₁))
      (hv : v.truth = .ok false) (hs : Fail r cs w₁ w₂) : Fail r (c :: cs) w w₂

variable {r : Meaning}

theorem run_firstTrue_cons {b : Branch} {v : Term} {taken : Bool} {w w' : World}
    (h : (r.eval b.condition).run w = (.ok v, w')) (hv : v.truth = .ok taken) (bs : List Branch)
    (d : Term) : (firstTrue r (b :: bs) d).run w =
      if taken then (r.eval b.result).run w' else (firstTrue r bs d).run w' := by
  rw [firstTrue, run_bind_of_ok h, hv]
  cases taken with
  | true => rfl
  | false => rfl

/-- Arms with a false condition are passed by, whatever their results are. -/
theorem run_firstTrue {before : List Branch} {w w' : World}
    (h : Fail r (before.map Branch.condition) w w') (bs : List Branch) (d : Term) :
    (firstTrue r (before ++ bs) d).run w = (firstTrue r bs d).run w' := by
  induction before generalizing w with
  | nil =>
    cases h
    rfl
  | cons b before ih =>
    cases h with
    | cons hc hv hs => rw [List.cons_append, run_firstTrue_cons hc hv, if_neg (by decide), ih hs]

/-! ## 5. Matches and chains are the same -/

/-- **A match is a chain of conditionals.**  Unless it is cut short, a match comes to the result of the
chain, or to its error, in the same world and with the same text printed, if there is one more level for
each condition; and so does the chain, if there are two more levels for the match.  Where the conditions
up to some arm are false and that of the arm is true, the result of this arm is all that is evaluated after
the condition; where all are false, it is the default. -/
theorem select_eq_chain (bs : List Branch) (d : Term) (n : Nat) :
    Approximates Term ((meaning (n + 2)).eval (selectOf bs d))
      ((meaning (n + bs.length)).eval (chainOf bs d)) ∧
    Approximates Term ((meaning n).eval (chainOf bs d)) ((meaning (n + 2)).eval (selectOf bs d)) ∧
    (∀ before b after v w w₁ w₂, bs = before ++ b :: after →
      Fail (meaning n) (before.map Branch.condition) w w₁ →
      ((meaning n).eval b.condition).run w₁ = (.ok v, w₂) → v.truth = .ok true →
      ((meaning (n + 2)).eval (selectOf bs d)).run w = ((meaning n).eval b.result).run w₂) ∧
    (∀ w w', Fail (meaning n) (bs.map Branch.condition) w w' →
      ((meaning (n + 2)).eval (selectOf bs d)).run w = ((meaning n).eval d).run w') := by
  rw [eval_selectOf]
  refine ⟨firstTrue_approximates n bs d, chainOf_approximates bs d (Nat.le_refl n), ?_, ?_⟩
  · rintro before b after v w w₁ w₂ rfl hbefore hc hv
    rw [run_firstTrue hbefore, run_firstTrue_cons hc hv, if_pos rfl]
  · intro w w' hall
    have h := run_firstTrue hall [] d
    rw [List.append_nil] at h
    exact h

/-- The second condition binds a name, and the third one would end the program. -/
def binding : List Branch :=
  [⟨.action .less [.int 2, .int 1], .action .print [.str "less"]⟩,
    ⟨.action .assign [.datum .var (.text "x"), .int 5], .datum .var (.text "x")⟩,
    ⟨.datum .ret (.text "return"), .int 0⟩]

theorem select_eq_chain_binding :
    Fail (meaning 3) [.action .less [.int 2, .int 1]] {} {} ∧
    ((meaning 3).eval (.action .assign [.datum .var (.text "x"), .int 5])).run {} =
      (.ok (.int 5), { scope := ({} : Scope Term).set "x" (.int 5) }) ∧
    (Term.int 5).truth = .ok true ∧
    ((meaning 5).eval (selectOf binding (.datum .ret (.text "return")))).run {} =
      (.ok (.int 5), { scope := ({} : Scope Term).set "x" (.int 5) }) := by
  have hfail : Fail (meaning 3) [.action .less [.int 2, .int 1]] {} {} := .cons rfl rfl (.nil {})
  refine ⟨hfail, rfl, rfl, ?_⟩
  exact (select_eq_chain binding (.datum .ret (.text "return")) 3).2.2.1
    [⟨.action .less [.int 2, .int 1], .action .print [.str "less"]⟩] _ _ _ _ _ _ rfl hfail rfl rfl

end Eval

end Offside
