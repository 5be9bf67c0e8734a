import Offside.Program
import Offside.Proofs.Core.Basic
import Offside.Proofs.Layout.Emission
import Offside.Proofs.Tree.Passes
/-!
# Core programs are read as they are meant

The text of a core program is read as its syntax tree (`parse_source`), for all core programs.  The
argument follows the text on its way:

* The text is cut into tokens.  Every line spells the tokens of an operator tree (`Legible.spells`), and
  the lines of a program are read one after the other (`Block.read`).
* The tokens are laid out.  A program is made of lines with lines below them (`Block.layout`) that are
  regular (`Block.regular`), so every line gets its block back.
* The tokens of each line are read as the tree they were written from, because it respects the powers of
  its signs (`Legible.respects`); a block counts as one token here (`reads_heading`).
* The passes over the finished tree turn the parameters of functions into lists of names and leave all
  else as it is.  `Statement.draft` is a statement before that.

Statements and blocks nest in each other, so each of these steps is two theorems by mutual recursion, one
for a statement and one for a block.
-/

namespace Offside

namespace Core

open Layout (Line emitAll statements RegularAll isPlain isArrowToken)
open Lexer (Name Numeral Spells spaces joinLines ends_cons)
open Precedence (OpTree)
open Offside.Tree (Reads ReadsAll Visits VisitsAll)

/-! ## 1. Expressions

An expression is written with its brackets, so its characters spell the tokens of its operator tree, and there
is nothing to show about precedence but that the tree respects the powers, which is part of a `Formula`. -/

theorem Operation.sign_mem (o : Operation) :
    o.joiner.sign ∈ OperatorTable.signs ∧ o.joiner.sign ≠ " . " := by
  cases o <;> decide

/-- The tokens of single lines: words and signs. -/
def isLexeme : Term → Bool
  | .leaf _ _ (.text _) => true
  | .symbol _ => true
  | _ => false

theorem isPlain_of_isLexeme {t : Term} (h : isLexeme t = true) : isPlain t = true := by
  cases t <;> first | rfl | cases h

theorem isNode_of_isLexeme {t : Term} (h : isLexeme t = true) : t.isNode = false := by
  cases t <;> first | rfl | cases h

namespace Expr

/-- The text of an expression spells the tokens of its tree.  Brackets make nothing longer, and signs stand
between spaces. -/
theorem spells (e : Expr) : Spells e.chars e.tree.yield := by
  induction e with
  | literal n => exact .numeral n
  | name x => exact .name x
  | parens inner ih =>
    have hclosing : Spells [')'] [.symbol ")"] := Spells.sign (s := ")") (by decide) (by decide)
    exact Spells.sign_append (s := "(") (by decide) (by decide) rfl (ih.append hclosing (ends_cons rfl _))
  | binary o left right ihl ihr =>
    obtain ⟨hmem, hdot⟩ := o.sign_mem
    exact ihl.spaced ((Spells.sign hmem hdot).spaced ihr)

theorem term_tree (e : Expr) : e.tree.term = e.term := by
  induction e with
  | literal n => rfl
  | name x => rfl
  | parens inner ih => simp only [tree, OpTree.term, ih, term]; rfl
  | binary o left right ihl ihr =>
    cases o <;> simp only [tree, Operation.joiner, OpTree.term, ihl, ihr, term]

/-- The tokens of an expression are words and signs; there are no columns and no blocks among them. -/
theorem lexemes (e : Expr) : ∀ t ∈ e.tree.yield, isLexeme t = true := by
  induction e with
  | literal n => exact List.forall_mem_singleton.2 rfl
  | name x => exact List.forall_mem_singleton.2 rfl
  | parens inner ih =>
    refine List.forall_mem_cons.2 ⟨rfl, List.forall_mem_append.2 ⟨ih, ?_⟩⟩
    exact List.forall_mem_singleton.2 rfl
  | binary o left right ihl ihr =>
    exact List.forall_mem_append.2 ⟨ihl, List.forall_mem_cons.2 ⟨rfl, ihr⟩⟩

/-- The signs in an expression bind stronger than those of statements.  So an expression can be an operand of
every sign that a statement is made of. -/
theorem above (e : Expr) {p : Int} (hp : p < 10) : e.tree.Above p := by
  induction e with
  | literal n => exact List.forall_mem_nil _
  | name x => exact List.forall_mem_nil _
  | parens inner ih => exact List.forall_mem_nil _
  | binary o left right ihl ihr =>
    refine List.forall_mem_cons.2 ⟨Int.lt_of_lt_of_le hp ?_, ihl⟩
    cases o <;> decide

theorem yields (e : Expr) {p : Int} (hp : p < 10) : e.tree.Yields p := by
  induction e with
  | literal n => exact List.forall_mem_nil _
  | name x => exact List.forall_mem_nil _
  | parens inner ih => exact List.forall_mem_nil _
  | binary o left right ihl ihr =>
    have h : 9 ≤ o.joiner.rightPower := by cases o <;> decide
    exact List.forall_mem_cons.2 ⟨by omega, ihr⟩

end Expr

/-! ## 2. Single lines

A line without a block below it is an operator tree by itself. `Legible` gathers what the three stages need of
it: its characters are cut into its tokens, these are words and signs, and the tree is the one that is read. -/

/-- A line that is read as an operator tree by itself. -/
structure Legible (cs : List Char) (e : OpTree) : Prop where
  spells : Spells cs e.yield
  lexemes : ∀ t ∈ e.yield, isLexeme t = true
  respects : e.Respects

namespace Simple

def tree : Simple → OpTree
  | assign x e => .between .assign (.atom x.token (isAtom_name x)) e.expr.tree
  | print e => .before .print e.expr.tree
  | check e => .before .check e.expr.tree
  | bare e => e.expr.tree

theorem term_tree (s : Simple) : s.tree.term = s.term := by
  cases s <;> simp only [tree, OpTree.term, Expr.term_tree, term, Formula.term] <;> rfl

theorem legible (s : Simple) : Legible s.chars s.tree := by
  cases s with
  | assign x e =>
    have hsign : Spells "=".toList [.symbol "="] := Spells.sign (by decide) (by decide)
    have hchars : (assign x e).chars = x.chars ++ ' ' :: ("=".toList ++ ' ' :: e.expr.chars) := by
      show x.chars ++ " = ".toList ++ e.expr.chars = _
      rw [List.append_assoc]
      rfl
    refine ⟨?_, ?_, ?_⟩
    · rw [hchars]
      exact (Spells.name x).spaced (hsign.spaced e.expr.spells)
    · exact List.forall_mem_cons.2 ⟨rfl, List.forall_mem_cons.2 ⟨rfl, e.expr.lexemes⟩⟩
    · exact ⟨List.forall_mem_nil _, e.expr.above (by decide), trivial, e.respects⟩
  | print e =>
    refine ⟨?_, List.forall_mem_cons.2 ⟨rfl, e.expr.lexemes⟩, e.expr.above (by decide), e.respects⟩
    exact Spells.sign_append (s := "p ") (by decide) (by decide) rfl e.expr.spells
  | check e =>
    refine ⟨?_, List.forall_mem_cons.2 ⟨rfl, e.expr.lexemes⟩, e.expr.above (by decide), e.respects⟩
    have hsign : Spells "assert".toList [.symbol "assert"] := Spells.sign (by decide) (by decide)
    exact hsign.spaced e.expr.spells
  | bare e => exact ⟨e.expr.spells, e.expr.lexemes, e.respects⟩

end Simple

namespace Arm

def tree (a : Arm) : OpTree := .between .ifThen a.condition.expr.tree a.result.expr.tree

theorem term_tree (a : Arm) : a.tree.term = a.term := by
  simp only [tree, OpTree.term, Expr.term_tree, term, Formula.term]; rfl

theorem legible (a : Arm) : Legible a.chars a.tree := by
  have hsign : Spells "=>".toList [.symbol "=>"] := Spells.sign (by decide) (by decide)
  have hchars : a.chars =
      a.condition.expr.chars ++ ' ' :: ("=>".toList ++ ' ' :: a.result.expr.chars) := by
    rw [chars, Formula.chars, Formula.chars, List.append_assoc]
    rfl
  refine ⟨?_, ?_, ?_⟩
  · rw [hchars]
    exact a.condition.expr.spells.spaced (hsign.spaced a.result.expr.spells)
  · exact List.forall_mem_append.2
      ⟨a.condition.expr.lexemes, List.forall_mem_cons.2 ⟨rfl, a.result.expr.lexemes⟩⟩
  · exact ⟨a.condition.expr.yields (by decide), a.result.expr.above (by decide),
      a.condition.respects, a.result.respects⟩

end Arm

/-! ## 3. Lines with a block below them

A function is a tree whose last operand is a block, and so is a match.  The block is not there yet when the
line is cut into tokens, so the tree is a function of what the block will be. -/

/-- The tree `e` and expressions, with commas between them. -/
def commaTree (e : OpTree) : List Formula → OpTree
  | [] => e
  | y :: ys => commaTree (.between .comma e y.expr.tree) ys

/-- Items with commas between them.  A comma makes no token longer, so no space is needed before it. -/
theorem spells_commaTree {a : List Char} {e : OpTree} (h : Spells a e.yield) (ys : List Formula) :
    Spells (a ++ ys.flatMap fun y => ", ".toList ++ y.chars) (commaTree e ys).yield := by
  induction ys generalizing a e with
  | nil => simpa [commaTree] using h
  | cons y ys ih =>
    have hsign : Spells ",".toList [.symbol ","] := Spells.sign (by decide) (by decide)
    have hitem : Spells (", ".toList ++ y.chars) (.symbol "," :: y.expr.tree.yield) :=
      hsign.spaced y.expr.spells
    rw [List.flatMap_cons, ← List.append_assoc]
    exact ih (h.append hitem (ends_cons rfl _))

theorem forall_mem_commaTree {P : Term → Prop} {e : OpTree} {ys : List Formula} (h : ∀ t ∈ e.yield, P t)
    (hsign : P (.symbol ",")) (hys : ∀ y ∈ ys, ∀ t ∈ y.expr.tree.yield, P t) :
    ∀ t ∈ (commaTree e ys).yield, P t := by
  induction ys generalizing e with
  | nil => exact h
  | cons y ys ih =>
    obtain ⟨hy, hys⟩ := List.forall_mem_cons.1 hys
    exact ih (List.forall_mem_append.2 ⟨h, List.forall_mem_cons.2 ⟨hsign, hy⟩⟩) hys

/-- Commas bind to the left and weaker than all that stands between them, so a list is respected from the left
on, one element more at a time. -/
theorem respects_commaTree {e : OpTree} (habove : e.Above 0) (hyields : e.Yields 5) (h : e.Respects)
    (ys : List Formula) : (commaTree e ys).Above 0 ∧ (commaTree e ys).Respects := by
  induction ys generalizing e with
  | nil => exact ⟨habove, h⟩
  | cons y ys ih =>
    refine ih (List.forall_mem_cons.2 ⟨by decide, habove⟩) ?_ ?_
    · exact List.forall_mem_cons.2 ⟨by decide, y.expr.yields (by decide)⟩
    · exact ⟨hyields, y.expr.above (by decide), h, y.respects⟩

theorem term_commaTree (e : OpTree) (y : Formula) (ys : List Formula) :
    (commaTree e (y :: ys)).term =
      .phrase .comma (Precedence.commaItems e.term ++ (y :: ys).map Formula.term) := by
  induction ys generalizing e y with
  | nil => simp only [commaTree, OpTree.term, Expr.term_tree, List.map_cons, List.map_nil, Formula.term]
  | cons y' ys ih =>
    rw [commaTree, ih]
    simp [OpTree.term, Precedence.commaItems, Term.phrase, Expr.term_tree, Formula.term]

/-- A name as an expression. -/
def Formula.ofName (x : Name) : Formula := ⟨.name x, trivial⟩

/-- What stands between the brackets before the arrow of a function. -/
def commaTerm (x : Name) (xs : List Name) : Term :=
  if xs = [] then x.token else .phrase .comma ((x :: xs).map Name.token)

/-- The tokens of the line above the body of a function, up to the arrow. -/
def headingStart (f x : Name) (xs : List Name) : List Term :=
  f.token :: .symbol "=" :: .symbol "(" ::
    ((commaTree (.atom x.token (isAtom_name x)) (xs.map .ofName)).yield ++ [.symbol ")"])

/-- The tokens of the line above the body of a function. -/
def headingTokens (f x : Name) (xs : List Name) : List Term :=
  headingStart f x xs ++ [.symbol "->"]

theorem isAtom_block (ts : List Term) : Precedence.isAtom (.phrase .block ts) = true := rfl

/-- A function, as an operator tree with its body as a token. -/
def defineTree (f x : Name) (xs : List Name) (body : List Term) : OpTree :=
  .between .assign (.atom f.token (isAtom_name f))
    (.between .lambda (.enclosed .round (commaTree (.atom x.token (isAtom_name x)) (xs.map .ofName)))
      (.atom (.phrase .block body) (isAtom_block body)))

/-- A match, as an operator tree with its arms as a token. -/
def selectTree (arms : List Term) : OpTree :=
  .before .select (.atom (.phrase .block arms) (isAtom_block arms))

/-- The line on which a function is defined: the name, the parameters in brackets and the arrow. -/
theorem spells_heading (f x : Name) (xs : List Name) :
    Spells (headingChars f x xs) (headingTokens f x xs) := by
  have hassign : Spells "=".toList [.symbol "="] := Spells.sign (by decide) (by decide)
  have hclosing : Spells ")".toList [.symbol ")"] := Spells.sign (by decide) (by decide)
  have harrow : Spells "->".toList [.symbol "->"] := Spells.sign (by decide) (by decide)
  have hparams := spells_commaTree (e := .atom x.token (isAtom_name x)) (Spells.name x) (xs.map .ofName)
  rw [List.flatMap_map] at hparams
  have hround := Spells.sign_append (s := "(") (by decide) (by decide) rfl
    (hparams.append hclosing (ends_cons rfl _))
  have h := (Spells.name f).spaced (hassign.spaced (hround.spaced harrow))
  have hchars : headingChars f x xs = f.chars ++ ' ' :: ("=".toList ++ ' ' ::
      (("(".toList ++ (commaChars x xs ++ ")".toList)) ++ ' ' :: "->".toList)) := by
    simp only [headingChars, List.append_assoc]
    rfl
  rw [hchars]
  exact h

theorem yield_defineTree (f x : Name) (xs : List Name) (body : List Term) :
    (defineTree f x xs body).yield = headingTokens f x xs ++ [.phrase .block body] := by
  simp only [defineTree, headingTokens, headingStart, OpTree.yield, List.append_assoc, List.cons_append,
    List.nil_append]
  rfl

theorem respects_defineTree (f x : Name) (xs : List Name) (body : List Term) :
    (defineTree f x xs body).Respects := by
  obtain ⟨habove, hparams⟩ := respects_commaTree (e := .atom x.token (isAtom_name x))
    (List.forall_mem_nil _) (List.forall_mem_nil _) trivial (xs.map .ofName)
  refine ⟨List.forall_mem_nil _, ?_, trivial, ?_⟩
  · exact List.forall_mem_singleton.2 (by decide)
  · exact ⟨List.forall_mem_nil _, List.forall_mem_nil _, ⟨habove, hparams⟩, trivial⟩

/-- What a definition is read as.  One parameter stands in the brackets by itself, several are one comma. -/
theorem term_defineTree (f x : Name) (xs : List Name) (body : List Term) :
    (defineTree f x xs body).term = .phrase .assign [f.token,
      .phrase .lambda [.phrase .parens [commaTerm x xs], .phrase .block body]] := by
  have hparams : (commaTree (.atom x.token (isAtom_name x)) (xs.map .ofName)).term = commaTerm x xs := by
    cases xs with
    | nil => rfl
    | cons y ys =>
      rw [List.map_cons, term_commaTree, ← List.map_cons, List.map_map]
      rfl
  simp only [defineTree, OpTree.term, hparams]
  rfl

/-- The arrow at the end of a heading is the only one on its line, so the body belongs to it. -/
theorem headingStart_tokens (f x : Name) (xs : List Name) :
    ∀ t ∈ headingStart f x xs, isLexeme t = true ∧ isArrowToken t = false := by
  have hparams : ∀ t ∈ (commaTree (.atom x.token (isAtom_name x)) (xs.map .ofName)).yield,
      isLexeme t = true ∧ isArrowToken t = false := by
    refine forall_mem_commaTree (List.forall_mem_singleton.2 ⟨rfl, rfl⟩) ⟨rfl, rfl⟩ fun y hy => ?_
    obtain ⟨x', -, rfl⟩ := List.mem_map.1 hy
    exact List.forall_mem_singleton.2 ⟨rfl, rfl⟩
  intro t ht
  simp only [headingStart, List.mem_cons, List.mem_append, List.not_mem_nil, or_false] at ht
  rcases ht with rfl | rfl | rfl | ht | rfl
  · exact ⟨rfl, rfl⟩
  · exact ⟨rfl, rfl⟩
  · exact ⟨rfl, rfl⟩
  · exact hparams t ht
  · exact ⟨rfl, rfl⟩

theorem headingTokens_lexemes (f x : Name) (xs : List Name) :
    ∀ t ∈ headingTokens f x xs, isLexeme t = true :=
  List.forall_mem_append.2 ⟨fun t ht => (headingStart_tokens f x xs t ht).1,
    List.forall_mem_singleton.2 rfl⟩

/-! ## 4. The lines of a program

Statements and blocks become the lines with lines below them that the layout is stated for.  Every stage is
then a pair of theorems, for a statement at a column and for a block at a column, by recursion on the program.
-/

/-- The line of an operator tree that has no block below it. -/
def lineOf (e : OpTree) : Line := .mk e.yield 0 []

mutual

/-- A statement at a column, as a line with the lines below it. -/
def Statement.layout (column : Nat) : Statement → Line
  | .simple s => lineOf s.tree
  | .define f x xs body => .mk (headingTokens f x xs) (column + 2 : Nat) (body.layout (column + 2))
  | .select arm arms =>
    .mk [.symbol "match"] (column + 2 : Nat) ((arm :: arms).map fun a => lineOf a.tree)

def Block.layout (column : Nat) : Block → List Line
  | .last s => [s.layout column]
  | .more s rest => s.layout column :: rest.layout column

end

theorem read_lineOf (k : Nat) {cs : List Char} {e : OpTree} (h : Legible cs e) :
    Lexer.Read [spaces k ++ cs] (.dent k :: (lineOf e).body) := by
  have hbody : (lineOf e).body = e.yield := by
    simp [lineOf, Line.body, emitAll]
  rw [hbody]
  exact .single k h.spells

section Rows

variable {ι : Type} {chars : ι → List Char} {tree : ι → OpTree}

/-- Lines in a row that are read by themselves. -/
theorem read_rows (k : Nat) (h : ∀ i, Legible (chars i) (tree i)) (rows : List ι) :
    Lexer.Read (rows.map fun i => spaces k ++ chars i) (emitAll k (rows.map fun i => lineOf (tree i))) := by
  induction rows with
  | nil => exact ⟨List.forall_mem_nil _, fun _ => rfl⟩
  | cons i rows ih => exact (read_lineOf k (h i)).append ih

theorem regular_lineOf {c : Int} {cs : List Char} {e : OpTree} (h : Legible cs e) :
    (lineOf e).Regular c :=
  ⟨h.spells.nonempty.2, fun t ht => isPlain_of_isLexeme (h.lexemes t ht), fun hne => absurd rfl hne,
    trivial⟩

theorem regular_rows (c : Int) (h : ∀ i, Legible (chars i) (tree i)) (rows : List ι) :
    RegularAll c (rows.map fun i => lineOf (tree i)) := by
  induction rows with
  | nil => trivial
  | cons i rows ih => exact ⟨regular_lineOf (h i), ih⟩

end Rows

mutual

/-- The lines of a statement are cut into the tokens of its lines.  A function is its heading and then its
body two spaces further in, a match its sign and then the arms. -/
theorem Statement.read : ∀ (s : Statement) (k : Nat),
    Lexer.Read (s.lines k) (.dent k :: (s.layout k).body)
  | .simple s, k => read_lineOf k s.legible
  | .define f x xs body, k => (Lexer.Read.single k (spells_heading f x xs)).append (body.read (k + 2))
  | .select arm arms, k => by
    have hsign : Spells "match".toList [.symbol "match"] := Spells.sign (by decide) (by decide)
    exact (Lexer.Read.single k hsign).append (read_rows (k + 2) Arm.legible (arm :: arms))

/-- The text of a program is cut into the tokens of its lines. -/
theorem Block.read : ∀ (b : Block) (k : Nat), Lexer.Read (b.lines k) (emitAll k (b.layout k))
  | .last s, k => by
    have h := s.read k
    rwa [← List.append_nil (s.layout k).body] at h
  | .more s rest, k => (s.read k).append (rest.read k)

end

theorem Block.layout_ne_nil (b : Block) (k : Nat) : b.layout k ≠ [] := by
  cases b <;> simp [Block.layout]

mutual

/-- A function has its arrow at the end of its heading and nowhere else, so the column behind it is the one of
its body. -/
theorem Statement.regular : ∀ (s : Statement) (k : Nat), (s.layout k).Regular k
  | .simple s, _ => regular_lineOf s.legible
  | .define f x xs body, k => by
    refine ⟨by simp [headingTokens], ?_, fun _ => ⟨by omega, ?_⟩, body.regular (k + 2)⟩
    · exact fun t ht => isPlain_of_isLexeme (headingTokens_lexemes f x xs t ht)
    · rw [headingTokens, List.dropLast_concat]
      exact fun t ht => (headingStart_tokens f x xs t ht).2
  | .select arm arms, k => by
    refine ⟨List.cons_ne_nil _ _, ?_, fun _ => ⟨by omega, List.forall_mem_nil _⟩,
      regular_rows _ Arm.legible (arm :: arms)⟩
    exact List.forall_mem_singleton.2 rfl

/-- The lines of a program are regular. -/
theorem Block.regular : ∀ (b : Block) (k : Nat), RegularAll k (b.layout k)
  | .last s, k => ⟨s.regular k, trivial⟩
  | .more s rest, k => ⟨s.regular k, rest.regular k⟩

end

/-! ## 5. The statements of a program

The layout gives one list of tokens for each statement, in which a block below a heading is the last token.
Here these lists are read.  For a line the reader gets the yield of an operator tree back (`reads_lineOf`).
For a heading the same is done with a tree in which the block is an atom (`reads_heading`), and what the block
has become does not matter to the powers. -/

mutual

/-- What is read of a statement at first: parameters are still what stands between the brackets. -/
def Statement.draft : Statement → Term
  | .simple s => s.term
  | .define f x xs body =>
    .phrase .assign [f.token, .phrase .lambda [.phrase .parens [commaTerm x xs],
      .phrase .block body.drafts]]
  | .select arm arms => .phrase .select [.phrase .block ((arm :: arms).map Arm.term)]

def Block.drafts : Block → List Term
  | .last s => [s.draft]
  | .more s rest => s.draft :: rest.drafts

end

theorem statement_lineOf (e : OpTree) : (lineOf e).statement = e.yield := by
  rw [lineOf, Line.statement]

theorem statement_of_ne_nil (ts : List Term) (level : Int) {below : List Line} (h : below ≠ []) :
    (Line.mk ts level below).statement = ts ++ [.phrase .block (statements below)] := by
  cases below with
  | nil => exact absurd rfl h
  | cons l ls => rw [Line.statement, statements]

theorem reads_lineOf {cs : List Char} {e : OpTree} (h : Legible cs e) :
    Reads (.phrase .expr (lineOf e).statement) e.term := by
  rw [statement_lineOf]
  exact Tree.reads_expr (.tokens fun t ht => isNode_of_isLexeme (h.lexemes t ht)) rfl h.respects

/-- Lines that can each be read can be read one after the other. -/
theorem reads_rows {ι : Type} {chars : ι → List Char} {tree : ι → OpTree} {term : ι → Term}
    (h : ∀ i, Legible (chars i) (tree i)) (hterm : ∀ i, (tree i).term = term i) (rows : List ι) :
    ReadsAll (statements (rows.map fun i => lineOf (tree i))) (rows.map term) := by
  induction rows with
  | nil => exact .nil
  | cons i rows ih =>
    have hrow := reads_lineOf (h i)
    rw [hterm i] at hrow
    exact .cons hrow ih

/-- A line with a block below it is read as a tree with the block as its last token.  The statements of the
block have been read when the line is, since the pass works from the inside out, and the tree respects the
powers whatever they became. -/
theorem reads_heading {heading : List Term} (hlex : ∀ t ∈ heading, isLexeme t = true)
    (tree : List Term → OpTree) (hyield : ∀ kids, (tree kids).yield = heading ++ [.phrase .block kids])
    (hresp : ∀ kids, (tree kids).Respects) (level : Int) {below : List Line} {kids : List Term}
    (hne : below ≠ []) (h : ReadsAll (statements below) kids) :
    Reads (.phrase .expr (Line.mk heading level below).statement) (tree kids).term := by
  have hall : ReadsAll (heading ++ [.phrase .block (statements below)]) (tree kids).yield := by
    rw [hyield]
    exact (ReadsAll.tokens fun t ht => isNode_of_isLexeme (hlex t ht)).append
      (.cons (Tree.reads_block h) .nil)
  rw [statement_of_ne_nil heading level hne]
  exact Tree.reads_expr hall (hyield (statements below)) (hresp kids)

mutual

/-- A statement, at any column.  A simple one is a line.  The others have a heading and a block below it,
whose lines have been read before. -/
theorem Statement.reads : ∀ (s : Statement) (k : Nat),
    Reads (.phrase .expr (s.layout k).statement) s.draft
  | .simple s, k => by
    have h := reads_lineOf s.legible
    rwa [s.term_tree] at h
  | .define f x xs body, k => by
    have h := reads_heading (headingTokens_lexemes f x xs) (defineTree f x xs) (yield_defineTree f x xs)
      (respects_defineTree f x xs) (k + 2 : Nat) (body.layout_ne_nil (k + 2)) (body.reads (k + 2))
    rwa [term_defineTree] at h
  | .select arm arms, k =>
    reads_heading (List.forall_mem_singleton.2 rfl) selectTree (fun _ => rfl)
      (fun _ => ⟨List.forall_mem_nil _, trivial⟩) _ (by simp) (reads_rows Arm.legible Arm.term_tree (arm :: arms))

/-- The statements of a program are read one by one. -/
theorem Block.reads : ∀ (b : Block) (k : Nat), ReadsAll (statements (b.layout k)) b.drafts
  | .last s, k => .cons (s.reads k) .nil
  | .more s rest, k => .cons (s.reads k) (rest.reads k)

end

/-! ## 6. Parameters and arguments

Of the four passes two are left.  One turns what stands before an arrow into a list of names, the other
encloses arguments; core programs have no calls, so it does nothing. -/

/-- A pass leaves expressions alone. -/
theorem Expr.visits (p : Tree.Pass) (e : Expr) : Visits p.apply e.term e.term := by
  induction e with
  | literal n => exact p.visits_token rfl
  | name x => exact p.visits_token rfl
  | parens inner ih => exact p.visits_node rfl (Tree.visitsAll_one ih)
  | binary o left right ihl ihr =>
    refine p.visits_node ?_ (Tree.visitsAll_two ihl ihr)
    cases o <;> rfl

theorem Simple.visits (p : Tree.Pass) (s : Simple) : Visits p.apply s.term s.term := by
  cases s with
  | assign x e =>
    exact p.visits_node rfl (Tree.visitsAll_two (p.visits_token rfl) (e.expr.visits p))
  | print e => exact p.visits_node rfl (Tree.visitsAll_one (e.expr.visits p))
  | check e => exact p.visits_node rfl (Tree.visitsAll_one (e.expr.visits p))
  | bare e => exact e.expr.visits p

theorem visits_arms (p : Tree.Pass) (arms : List Arm) :
    VisitsAll p.apply (arms.map Arm.term) (arms.map Arm.term) := by
  induction arms with
  | nil => exact Tree.visitsAll_nil
  | cons a arms ih =>
    refine Tree.visitsAll_cons (p.visits_node rfl ?_) ih
    exact Tree.visitsAll_two (a.condition.expr.visits p) (a.result.expr.visits p)

theorem visits_select (p : Tree.Pass) (arm : Arm) (arms : List Arm) :
    Visits p.apply (Statement.select arm arms).term (Statement.select arm arms).term :=
  p.visits_node rfl (Tree.visitsAll_one (p.visits_node rfl (visits_arms p (arm :: arms))))

theorem visits_names (p : Tree.Pass) (xs : List Name) :
    VisitsAll p.apply (xs.map Name.token) (xs.map Name.token) := by
  induction xs with
  | nil => exact Tree.visitsAll_nil
  | cons x xs ih => exact Tree.visitsAll_cons (p.visits_token rfl) ih

theorem visits_commaTerm (p : Tree.Pass) (x : Name) (xs : List Name) :
    Visits p.apply (commaTerm x xs) (commaTerm x xs) := by
  cases xs with
  | nil => exact p.visits_token rfl
  | cons y ys => exact p.visits_node rfl (visits_names p (x :: y :: ys))

theorem mapM_name (xs : List Name) :
    (xs.map Name.token).mapM (fun t => do return Term.leaf (.word .id) none (← t.value)) =
      (.ok (xs.map Name.token) : Except Error (List Term)) := by
  induction xs with
  | nil => rfl
  | cons x xs ih =>
    rw [List.map_cons, List.mapM_cons, ih]
    rfl

/-- What stands between the brackets gives the parameters. -/
theorem parameters_commaTerm (x : Name) (xs : List Name) :
    Tree.parameters (.phrase .parens [commaTerm x xs]) =
      .ok (.phrase .list ((x :: xs).map Name.token)) := by
  cases xs with
  | nil => rfl
  | cons y ys =>
    show (((x :: y :: ys).map Name.token).mapM (m := Except Error) fun t => do
      return Term.leaf (.word .id) none (← t.value)).bind (fun names => .ok (Term.phrase .list names)) = _
    rw [mapM_name]
    rfl

/-- The parameters of a function become a list of names. -/
theorem visits_parameters (f x : Name) (xs : List Name) {body body' : List Term}
    (h : VisitsAll Tree.nameParameters body body') :
    Visits Tree.nameParameters
      (.phrase .assign [f.token, .phrase .lambda [.phrase .parens [commaTerm x xs], .phrase .block body]])
      (.phrase .assign [f.token,
        .phrase .lambda [.phrase .list ((x :: xs).map Name.token), .phrase .block body']]) := by
  have hbody := Tree.Pass.visits_node .nameParameters (k := .phrase .block) (s := none) rfl h
  have hparams := Tree.Pass.visits_node .nameParameters (k := .phrase .parens) (s := none) rfl
    (Tree.visitsAll_one (visits_commaTerm .nameParameters x xs))
  have hlambda : Visits Tree.nameParameters
      (.phrase .lambda [.phrase .parens [commaTerm x xs], .phrase .block body])
      (.phrase .lambda [.phrase .list ((x :: xs).map Name.token), .phrase .block body']) := by
    refine Tree.visits_node (Tree.visitsAll_two hparams hbody) ?_
    have h := parameters_commaTerm x xs
    simp only [Term.phrase] at h
    simp only [Tree.nameParameters, h, bind, Except.bind]
    rfl
  exact Tree.Pass.visits_node .nameParameters rfl
    (Tree.visitsAll_two (Tree.Pass.visits_token .nameParameters rfl) hlambda)

/-- Its arguments are not those of a call. -/
theorem visits_arguments (f x : Name) (xs : List Name) {body body' : List Term}
    (h : VisitsAll Tree.bracketArguments body body') :
    Visits Tree.bracketArguments
      (.phrase .assign [f.token,
        .phrase .lambda [.phrase .list ((x :: xs).map Name.token), .phrase .block body]])
      (.phrase .assign [f.token,
        .phrase .lambda [.phrase .list ((x :: xs).map Name.token), .phrase .block body']]) := by
  have hbody := Tree.Pass.visits_node .bracketArguments (k := .phrase .block) (s := none) rfl h
  have hparams := Tree.Pass.visits_node .bracketArguments (k := .phrase .list) (s := none) rfl
    (visits_names .bracketArguments (x :: xs))
  have hlambda : Visits Tree.bracketArguments
      (.phrase .lambda [.phrase .list ((x :: xs).map Name.token), .phrase .block body])
      (.phrase .lambda [.phrase .list ((x :: xs).map Name.token), .phrase .block body']) :=
    Tree.visits_node (Tree.visitsAll_two hparams hbody) rfl
  exact Tree.Pass.visits_node .bracketArguments rfl
    (Tree.visitsAll_two (Tree.Pass.visits_token .bracketArguments rfl) hlambda)

mutual

theorem Statement.visits_draft : ∀ s : Statement, Visits Tree.nameParameters s.draft s.term
  | .simple s => s.visits .nameParameters
  | .define f x xs body => visits_parameters f x xs body.visits_drafts
  | .select arm arms => visits_select .nameParameters arm arms

/-- The parameters of functions become lists of names, and nothing else changes. -/
theorem Block.visits_drafts : ∀ b : Block, VisitsAll Tree.nameParameters b.drafts b.terms
  | .last s => Tree.visitsAll_one s.visits_draft
  | .more s rest => Tree.visitsAll_cons s.visits_draft rest.visits_drafts

end

mutual

theorem Statement.visits_term : ∀ s : Statement, Visits Tree.bracketArguments s.term s.term
  | .simple s => s.visits .bracketArguments
  | .define f x xs body => visits_arguments f x xs body.visits_terms
  | .select arm arms => visits_select .bracketArguments arm arms

/-- There are no calls, so there are no arguments to enclose. -/
theorem Block.visits_terms : ∀ b : Block, VisitsAll Tree.bracketArguments b.terms b.terms
  | .last s => Tree.visitsAll_one s.visits_term
  | .more s rest => Tree.visitsAll_cons s.visits_term rest.visits_terms

end

/-! ## 7. Programs

The stages are put together: the text is cut into the tokens of its lines, these are laid out, and the tree
that is read from them is the one that the program is in the syntax tree. -/

namespace Block

theorem tokens_source (b : Block) (ended : Bool) :
    Lexer.tokens (b.source ended) = .ok (emitAll 0 (b.layout 0)) :=
  Lexer.tokens_joinLines ended (b.read 0)

/-- The tokens of a program are laid out and read as its tree: the layout gives the statements back, reading
by precedence makes the drafts of them, and the last two passes make the tree of the drafts. -/
theorem parse_tree (b : Block) :
    Tree.parse (Layout.tree (emitAll 0 (b.layout 0))) = .ok (.phrase .block b.terms) := by
  have hlayout : Layout.tree (emitAll 0 (b.layout 0)) = .phrase .block (statements (b.layout 0)) :=
    Layout.tree_emitAll (b.layout_ne_nil 0) (b.regular 0)
  rw [hlayout]
  exact Tree.parse_block (b.reads 0) b.visits_drafts b.visits_terms

end Block

/-- **Reading inverts writing.**  The text of every core program is read, and as the tree that was
written. -/
theorem parse_source (b : Block) (ended : Bool) :
    Program.parse (b.source ended) = .ok (.phrase .block b.terms) := by
  rw [Program.parse, b.tokens_source ended]
  exact b.parse_tree

end Core

end Offside
