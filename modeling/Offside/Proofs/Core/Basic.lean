import Offside.Proofs.Precedence.Tree
import Offside.Proofs.Token.Spelling
/-!
# Core programs

Core programs are a part of the language that is large enough to compute with: assignments, printing,
assertions, bare expressions, functions with at least one parameter, and matches.  Here they are a type
of their own, with the two things that one wants to compare:

* the text of a program (`Block.source`), with one statement on a line, single spaces around the signs
  between operands, and every block two spaces further in than the line that it belongs to;
* the syntax tree of a program (`Block.terms`).

Brackets are part of an expression, so that an expression is written as it is.  It only counts as one
(`Formula`) if it respects the powers of its signs: the text of any other expression means another one.
-/

namespace Offside

namespace Core

open Lexer (Name Numeral spaces joinLines)
open Precedence (Joiner OpTree)

/-! ## 1. Expressions

An expression has three faces: how it is written, what it is in the syntax tree, and the operator tree between
the two.  Operator trees are what precedence is stated about (`OpTree.Respects`), so it is there that an
expression is asked to respect the powers of its signs. -/

/-- The signs between the operands of an expression. -/
inductive Operation where
  | add | sub | mul | pow | eq | less | more
  deriving DecidableEq, Repr

def Operation.joiner : Operation → Joiner
  | add => .add
  | sub => .sub
  | mul => .mul
  | pow => .pow
  | eq => .eq
  | less => .less
  | more => .more

theorem isAtom_name (x : Name) : Precedence.isAtom x.token = true := rfl

inductive Expr where
  | literal (n : Numeral)
  | name (x : Name)
  | parens (inner : Expr)
  | binary (o : Operation) (left right : Expr)

namespace Expr

/-- How an expression is written. -/
def chars : Expr → List Char
  | literal n => n.chars
  | name x => x.chars
  | parens inner => '(' :: (inner.chars ++ [')'])
  | binary o left right => left.chars ++ ' ' :: (o.joiner.sign.toList ++ ' ' :: right.chars)

/-- What an expression is in the syntax tree. -/
def term : Expr → Term
  | literal n => .word .int (String.ofList n.chars)
  | name x => .word .id x.text
  | parens inner => .phrase .parens [inner.term]
  | binary o left right => .phrase o.joiner.phrase [left.term, right.term]

/-- The expression as an operator tree. -/
def tree : Expr → OpTree
  | literal n => .atom n.token rfl
  | name x => .atom x.token (isAtom_name x)
  | parens inner => .enclosed .round inner.tree
  | binary o left right => .between o.joiner left.tree right.tree

end Expr

/-- An expression that respects the powers of its signs without further brackets. -/
structure Formula where
  expr : Expr
  respects : expr.tree.Respects

namespace Formula

def chars (e : Formula) : List Char := e.expr.chars

def term (e : Formula) : Term := e.expr.term

end Formula

/-! ## 2. Statements

Statements of one line, arms, and the two kinds of statements that have a block below them.  What a statement
may consist of is in the types: a function has a first parameter, a match has a first arm, and a block has a
last statement, so that none of them can be empty. -/

/-- The statements of a single line. -/
inductive Simple where
  | assign (x : Name) (e : Formula)
  | print (e : Formula)
  | check (e : Formula)
  | bare (e : Formula)

namespace Simple

def chars : Simple → List Char
  | assign x e => x.chars ++ " = ".toList ++ e.chars
  | print e => "p ".toList ++ e.chars
  | check e => "assert ".toList ++ e.chars
  | bare e => e.chars

def term : Simple → Term
  | assign x e => .phrase .assign [.word .id x.text, e.term]
  | print e => .phrase .print [e.term]
  | check e => .phrase .check [e.term]
  | bare e => e.term

end Simple

/-- An arm of a match. -/
structure Arm where
  condition : Formula
  result : Formula

namespace Arm

def chars (a : Arm) : List Char := a.condition.chars ++ " => ".toList ++ a.result.chars

def term (a : Arm) : Term := .phrase .ifThen [a.condition.term, a.result.term]

end Arm

mutual

inductive Statement where
  | simple (s : Simple)
  /-- a function with the parameters `x` and `xs` -/
  | define (f x : Name) (xs : List Name) (body : Block)
  | select (arm : Arm) (arms : List Arm)

/-- Blocks are not empty. -/
inductive Block where
  | last (s : Statement)
  | more (s : Statement) (rest : Block)

end

/-! ## 3. How programs are written

Columns are chosen once and for all: a block is two spaces further in than the line that it belongs to.  The
layout does not depend on the number, but a text has to have some. -/

/-- Names with commas between them. -/
def commaChars (x : Name) (xs : List Name) : List Char :=
  x.chars ++ xs.flatMap fun y => ", ".toList ++ y.chars

/-- The line above the body of a function. -/
def headingChars (f x : Name) (xs : List Name) : List Char :=
  f.chars ++ " = (".toList ++ commaChars x xs ++ ") ->".toList

mutual

/-- The lines of a statement that is so many spaces in. -/
def Statement.lines (indent : Nat) : Statement → List (List Char)
  | .simple s => [spaces indent ++ s.chars]
  | .define f x xs body => (spaces indent ++ headingChars f x xs) :: body.lines (indent + 2)
  | .select arm arms =>
    (spaces indent ++ "match".toList) :: (arm :: arms).map fun a => spaces (indent + 2) ++ a.chars

def Block.lines (indent : Nat) : Block → List (List Char)
  | .last s => s.lines indent
  | .more s rest => s.lines indent ++ rest.lines indent

end

/-- The text of a program.  Its last line may be ended or not. -/
def Block.source (b : Block) (ended : Bool) : String := String.ofList (joinLines ended (b.lines 0))

/-! ## 4. What programs are in the syntax tree -/

mutual

def Statement.term : Statement → Term
  | .simple s => s.term
  | .define f x xs body =>
    .phrase .assign [.word .id f.text,
      .phrase .lambda [.phrase .list ((x :: xs).map fun y => .word .id y.text),
        .phrase .block body.terms]]
  | .select arm arms => .phrase .select [.phrase .block ((arm :: arms).map Arm.term)]

def Block.terms : Block → List Term
  | .last s => [s.term]
  | .more s rest => s.term :: rest.terms

end

end Core

end Offside
