import Mathlib.Algebra.Group.Int.Defs
import Offside.Eval.Basic
import Offside.Proofs.Core.Basic
/-!
# Straight-line programs over the integers

A straight-line program assigns integers to variables, one after the other, and gives back one more
integer.  What it computes is said here in terms of the integers and of environments only
(`Code.value`); how it is written as a program of the language is said next to it (`Code.source`).

Expressions are trees.  They are written with as few brackets as the usual rules ask for: powers bind
stronger than products and products stronger than sums; powers group to the right and all others to the
left.  These rules are stated with ranks of their own; that they fit the powers in the table of operators
is a fact to prove (`Arith.respects_expr`).
-/

namespace Offside

namespace StraightLine

open Lexer (Name Numeral)
open Precedence (OpTree)

/-! ## 1. Expressions and their values

Values are integers, and no operation fails.  What could go wrong when a program is run is kept apart:
exponents that are negative, names that are not known, and numerals that are too long each have a predicate of
their own, which can be decided. -/

inductive Op where
  | add | sub | mul | pow
  deriving DecidableEq, Repr

inductive Arith where
  | literal (n : Numeral)
  | var (x : Name)
  | binary (o : Op) (left right : Arith)

/-- The integers that names stand for. -/
abbrev Env := String → Int

def Env.set (env : Env) (x : String) (v : Int) : Env := fun y => if y = x then v else env y

/-- The integer that a numeral denotes. -/
def numeralValue (n : Numeral) : Nat := n.digits.foldl (fun v d => 10 * v + d.val) 0

def Op.apply : Op → Int → Int → Int
  | add, x, y => x + y
  | sub, x, y => x - y
  | mul, x, y => x * y
  | pow, x, y => x ^ y.toNat

namespace Arith

def value (env : Env) : Arith → Int
  | literal n => numeralValue n
  | var x => env x.text
  | binary o left right => o.apply (left.value env) (right.value env)

/-- No exponent is negative. -/
def NonnegExponents (env : Env) : Arith → Prop
  | literal _ => True
  | var _ => True
  | binary o left right =>
    left.NonnegExponents env ∧ right.NonnegExponents env ∧ (o = .pow → 0 ≤ right.value env)

/-- All variables are among these names. -/
def Scoped (known : List String) : Arith → Prop
  | literal _ => True
  | var x => x.text ∈ known
  | binary _ left right => left.Scoped known ∧ right.Scoped known

/-- No literal has more digits than can be read. -/
def Short : Arith → Prop
  | literal n => n.digits.length ≤ Text.digitLimit
  | var _ => True
  | binary _ left right => left.Short ∧ right.Short

instance decidableNonnegExponents (env : Env) : (e : Arith) → Decidable (e.NonnegExponents env)
  | literal _ => isTrue trivial
  | var _ => isTrue trivial
  | binary _ left right =>
    have := decidableNonnegExponents env left
    have := decidableNonnegExponents env right
    inferInstanceAs (Decidable (_ ∧ _ ∧ (_ → _)))

instance decidableScoped (known : List String) : (e : Arith) → Decidable (e.Scoped known)
  | literal _ => isTrue trivial
  | var x => inferInstanceAs (Decidable (x.text ∈ known))
  | binary _ left right =>
    have := decidableScoped known left
    have := decidableScoped known right
    inferInstanceAs (Decidable (_ ∧ _))

instance decidableShort : (e : Arith) → Decidable e.Short
  | literal _ => inferInstanceAs (Decidable (_ ≤ _))
  | var _ => isTrue trivial
  | binary _ left right =>
    have := decidableShort left
    have := decidableShort right
    inferInstanceAs (Decidable (_ ∧ _))

end Arith

/-! ## 2. How expressions are written

An operand is put into brackets by its rank and by the side it stands on.  The rule is the usual one and does
not mention the table of operators. -/

def Op.operation : Op → Core.Operation
  | add => .add
  | sub => .sub
  | mul => .mul
  | pow => .pow

/-- How strongly an operation binds. -/
def Op.rank : Op → Fin 4
  | add | sub => 0
  | mul => 1
  | pow => 2

/-- The operation groups to the right. -/
def Op.toRight : Op → Bool
  | pow => true
  | _ => false

/-- Literals and variables bind strongest. -/
def Arith.rank : Arith → Fin 4
  | literal _ => 3
  | var _ => 3
  | binary o _ _ => o.rank

/-- A left operand of this rank needs brackets. -/
def Op.bracketsLeft (o : Op) (rank : Fin 4) : Bool := rank < o.rank || (rank = o.rank && o.toRight)

/-- A right operand of this rank needs brackets. -/
def Op.bracketsRight (o : Op) (rank : Fin 4) : Bool := rank < o.rank || (rank = o.rank && !o.toRight)

def bracketed (needed : Bool) (e : Core.Expr) : Core.Expr := if needed then .parens e else e

/-- The expression with its brackets. -/
def Arith.expr : Arith → Core.Expr
  | literal n => .literal n
  | var x => .name x
  | binary o left right =>
    .binary o.operation (bracketed (o.bracketsLeft left.rank) left.expr)
      (bracketed (o.bracketsRight right.rank) right.expr)

/-! ## 3. Brackets and powers

The rank of an expression bounds the powers that can be met along its two edges, and brackets end both edges.
An operand gets brackets by its rank; so where it has none, the powers along its edges are those that the
table asks for.  Powers group to the right, hence the two tables of numbers differ in one place. -/

/-- No sign on the left spine of an expression of this rank has a smaller power. -/
def leftPower : Fin 4 → Int
  | 0 => 20
  | 1 => 30
  | 2 => 40
  | 3 => 1000

/-- No last operand of an expression of this rank is read with a smaller power. -/
def rightPower : Fin 4 → Int
  | 0 => 20
  | 1 => 30
  | 2 => 39
  | 3 => 1000

namespace Op

theorem leftPower_rank (o : Op) : leftPower o.rank = o.operation.joiner.power := by
  cases o <;> rfl

theorem rightPower_rank (o : Op) : rightPower o.rank = o.operation.joiner.rightPower := by
  cases o <;> rfl

/-- A left operand without brackets has only powers that let the operation have it. -/
theorem power_le_of_bracketsLeft {o : Op} {k : Fin 4} (h : o.bracketsLeft k = false) :
    o.operation.joiner.power ≤ leftPower k ∧ o.operation.joiner.power ≤ rightPower k := by
  revert k
  cases o <;> decide

/-- A right operand without brackets has only powers with which the operation reads it. -/
theorem rightPower_lt_of_bracketsRight {o : Op} {k : Fin 4} (h : o.bracketsRight k = false) :
    o.operation.joiner.rightPower < leftPower k ∧ o.operation.joiner.rightPower ≤ rightPower k := by
  revert k
  cases o <;> decide

end Op

theorem leftPower_pos (k : Fin 4) : 0 < leftPower k := by
  revert k
  decide

/-- Brackets end both spines. -/
theorem leftSpine_bracketed {b : Bool} {e : Core.Expr} {P : Int → Prop}
    (h : b = false → ∀ q ∈ e.tree.leftSpine, P q) : ∀ q ∈ (bracketed b e).tree.leftSpine, P q := by
  cases b with
  | false => exact h rfl
  | true => exact List.forall_mem_nil _

theorem rightSpine_bracketed {b : Bool} {e : Core.Expr} {P : Int → Prop}
    (h : b = false → ∀ q ∈ e.tree.rightSpine, P q) : ∀ q ∈ (bracketed b e).tree.rightSpine, P q := by
  cases b with
  | false => exact h rfl
  | true => exact List.forall_mem_nil _

namespace Arith

/-- The powers along the left edge of an expression are bounded by its rank.  Where an operand would go below
it stands in brackets, and then it has no left edge. -/
theorem leftPower_le (e : Arith) : ∀ q ∈ e.expr.tree.leftSpine, leftPower e.rank ≤ q := by
  induction e with
  | literal n => exact List.forall_mem_nil _
  | var x => exact List.forall_mem_nil _
  | binary o left right ihl ihr =>
    show ∀ q ∈ o.operation.joiner.power :: _, leftPower o.rank ≤ q
    rw [o.leftPower_rank]
    refine List.forall_mem_cons.2 ⟨Int.le_refl _, leftSpine_bracketed fun hb q hq => ?_⟩
    exact Int.le_trans (Op.power_le_of_bracketsLeft hb).1 (ihl q hq)

/-- The same along the right edge. -/
theorem rightPower_le (e : Arith) : ∀ q ∈ e.expr.tree.rightSpine, rightPower e.rank ≤ q := by
  induction e with
  | literal n => exact List.forall_mem_nil _
  | var x => exact List.forall_mem_nil _
  | binary o left right ihl ihr =>
    show ∀ q ∈ o.operation.joiner.rightPower :: _, rightPower o.rank ≤ q
    rw [o.rightPower_rank]
    refine List.forall_mem_cons.2 ⟨Int.le_refl _, rightSpine_bracketed fun hb q hq => ?_⟩
    exact Int.le_trans (Op.rightPower_lt_of_bracketsRight hb).2 (ihr q hq)

theorem respects_bracketed (b : Bool) {e : Arith} (h : e.expr.tree.Respects) :
    (bracketed b e.expr).tree.Respects := by
  cases b with
  | false => exact h
  | true => exact ⟨fun q hq => Int.lt_of_lt_of_le (leftPower_pos _) (e.leftPower_le q hq), h⟩

/-- **The usual brackets are enough**: with them an expression respects the powers in the table. -/
theorem respects_expr (e : Arith) : e.expr.tree.Respects := by
  induction e with
  | literal n => trivial
  | var x => trivial
  | binary o left right ihl ihr =>
    refine ⟨?_, ?_, respects_bracketed _ ihl, respects_bracketed _ ihr⟩
    · refine rightSpine_bracketed fun hb q hq => ?_
      exact Int.le_trans (Op.power_le_of_bracketsLeft hb).2 (left.rightPower_le q hq)
    · refine leftSpine_bracketed fun hb q hq => ?_
      exact Int.lt_of_lt_of_le (Op.rightPower_lt_of_bracketsRight hb).1 (right.leftPower_le q hq)

def formula (e : Arith) : Core.Formula := ⟨e.expr, e.respects_expr⟩

end Arith

/-! ## 4. Programs

An assignment changes the environment for the lines below it.  Conditions on a program follow the same
recursion: a name is known once it has been assigned, and an exponent is looked at in the environment of its
line. -/

/-- An assignment `target = rhs`. -/
structure Assignment where
  target : Name
  rhs : Arith

/-- A straight-line program: assignments, and the expression for what is given back. -/
structure Code where
  lines : List Assignment
  result : Arith

/-- The environment after assignments. -/
def runLines (env : Env) : List Assignment → Env
  | [] => env
  | a :: as => runLines (env.set a.target.text (a.rhs.value env)) as

/-- The environment at the start: only the number of arguments means something. -/
def start (argc : Nat) : Env := fun x => if x = "argc" then argc else 0

/-- What a program computes from the number of its arguments. -/
def Code.value (c : Code) (argc : Nat) : Int := c.result.value (runLines (start argc) c.lines)

/-- Each variable is one of these names or has been assigned before. -/
def ScopedLines (known : List String) : List Assignment → Arith → Prop
  | [], e => e.Scoped known
  | a :: as, e => a.rhs.Scoped known ∧ ScopedLines (a.target.text :: known) as e

def NonnegLines (env : Env) : List Assignment → Arith → Prop
  | [], e => e.NonnegExponents env
  | a :: as, e =>
    a.rhs.NonnegExponents env ∧ NonnegLines (env.set a.target.text (a.rhs.value env)) as e

instance decidableScopedLines (known : List String) :
    (as : List Assignment) → (e : Arith) → Decidable (ScopedLines known as e)
  | [], e => inferInstanceAs (Decidable (e.Scoped known))
  | a :: as, e =>
    have := decidableScopedLines (a.target.text :: known) as e
    inferInstanceAs (Decidable (_ ∧ _))

instance decidableNonnegLines (env : Env) :
    (as : List Assignment) → (e : Arith) → Decidable (NonnegLines env as e)
  | [], e => inferInstanceAs (Decidable (e.NonnegExponents env))
  | a :: as, e =>
    have := decidableNonnegLines (env.set a.target.text (a.rhs.value env)) as e
    inferInstanceAs (Decidable (_ ∧ _))

namespace Code

/-- A program uses only the number of arguments and what it has assigned before. -/
def Scoped (c : Code) : Prop := ScopedLines ["argc"] c.lines c.result

/-- No exponent is negative when the program runs. -/
def NonnegExponents (c : Code) (argc : Nat) : Prop := NonnegLines (start argc) c.lines c.result

def Short (c : Code) : Prop := (∀ a ∈ c.lines, a.rhs.Short) ∧ c.result.Short

instance (c : Code) : Decidable c.Scoped := inferInstanceAs (Decidable (ScopedLines _ _ _))

instance (c : Code) (argc : Nat) : Decidable (c.NonnegExponents argc) :=
  inferInstanceAs (Decidable (NonnegLines _ _ _))

instance (c : Code) : Decidable c.Short := inferInstanceAs (Decidable (_ ∧ _))

end Code

/-! ## 5. How programs are written

A straight-line program is the body of `main` in a core program.  Its nesting is counted with the brackets, as
these take a level of depth when they are evaluated. -/

def mainName : Name := ⟨'m', ['a', 'i', 'n'], by decide, List.all_eq_true.1 (by decide), by decide, by decide⟩

def argcName : Name := ⟨'a', ['r', 'g', 'c'], by decide, List.all_eq_true.1 (by decide), by decide, by decide⟩

def argvName : Name := ⟨'a', ['r', 'g', 'v'], by decide, List.all_eq_true.1 (by decide), by decide, by decide⟩

/-- The body of `main`. -/
def bodyOf : List Assignment → Arith → Core.Block
  | [], e => .last (.simple (.bare e.formula))
  | a :: as, e => .more (.simple (.assign a.target a.rhs.formula)) (bodyOf as e)

/-- How deep an expression is nested, its brackets included. -/
def nesting : Core.Expr → Nat
  | .literal _ => 1
  | .name _ => 1
  | .parens inner => nesting inner + 1
  | .binary _ left right => max (nesting left) (nesting right) + 1

namespace Code

/-- The program `main = (argc, argv) ->` with the assignments and the expression below it. -/
def program (c : Code) : Core.Block :=
  .last (.define mainName argcName [argvName] (bodyOf c.lines c.result))

def source (c : Code) (ended : Bool) : String := c.program.source ended

/-- The body of `main` is nested no deeper than terms are evaluated: the expressions, the assignments
around them and the block. -/
def Shallow (c : Code) : Prop :=
  (∀ a ∈ c.lines, nesting a.rhs.expr + 2 ≤ Eval.depthLimit) ∧ nesting c.result.expr + 1 ≤ Eval.depthLimit

instance (c : Code) : Decidable c.Shallow := inferInstanceAs (Decidable (_ ∧ _))

end Code

end StraightLine

end Offside
