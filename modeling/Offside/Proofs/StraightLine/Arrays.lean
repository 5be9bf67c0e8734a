import Offside.Proofs.Program.Outcome
import Offside.Proofs.StraightLine.Running
/-!
# Array literals and subscripts

A straight-line program may write down an array and give back one of its members.  One would expect the
value that the expression in that place had when the array was written down.  It is not what happens: the
members of an array are not evaluated, neither where the array is written nor where one of them is taken.  A
member that is a literal is an integer as it is; for any other one the program gives back 0 (`asItIs`).

An array of one member is not read as such.  Brackets around a single expression make an array of its parts,
so there are two members if the expression has two operands, and it is an error if it has none.

All this is `given`, and `run_listing` says that programs give back just that, on the whole way from the text
to the result.
-/

namespace Offside

namespace StraightLine

open Lexer (Name spaces joinLines Spells ends_cons)
open Offside.Core (Formula Legible isAtom_name commaTree lineOf isLexeme)
open Precedence (OpTree)
open Term (WritableAll)
open Offside.Tree (Visits VisitsAll)

/-! ## 1. Lines

A line with an array or with a subscript is an operator tree like any other line, so the results about reading
core programs hold of it. -/

/-- The lines of a body: statements of the core language, arrays under a name, and members of arrays. -/
inductive Row where
  | simple (s : Core.Simple)
  /-- `x = [e, ...]` -/
  | array (x : Name) (e : Formula) (es : List Formula)
  /-- `x[i]` -/
  | member (x : Name) (i : Formula)

/-- What stands between the brackets of an array. -/
def inside (e : Formula) (es : List Formula) : Term :=
  if es = [] then e.term else .phrase .comma ((e :: es).map Formula.term)

namespace Row

def chars : Row → List Char
  | simple s => s.chars
  | array x e es =>
    x.chars ++ " = [".toList ++ (e.chars ++ es.flatMap fun y => ", ".toList ++ y.chars) ++ "]".toList
  | member x i => x.chars ++ ("[".toList ++ (i.chars ++ "]".toList))

def tree : Row → OpTree
  | simple s => s.tree
  | array x e es =>
    .between .assign (.atom x.token (isAtom_name x)) (.enclosed .square (commaTree e.expr.tree es))
  | member x i => .index (.atom x.token (isAtom_name x)) i.expr.tree

def term : Row → Term
  | simple s => s.term
  | array x e es => .phrase .assign [.word .id x.text, .phrase .brackets [inside e es]]
  | member x i => .phrase .subscript [.word .id x.text, i.term]

theorem commaItems_term (e : Core.Expr) : Precedence.commaItems e.term = [e.term] := by
  cases e with
  | binary o left right => cases o <;> rfl
  | _ => rfl

theorem term_inside (e : Formula) (es : List Formula) : (commaTree e.expr.tree es).term = inside e es := by
  cases es with
  | nil => exact e.expr.term_tree
  | cons y ys =>
    rw [Core.term_commaTree, e.expr.term_tree, commaItems_term]
    rfl

/-- What the line is read as. -/
theorem term_tree (r : Row) : r.tree.term = r.term := by
  cases r with
  | simple s => exact s.term_tree
  | array x e es =>
    simp only [tree, OpTree.term, term_inside, term]
    rfl
  | member x i =>
    simp only [tree, OpTree.term, Core.Expr.term_tree, term, Formula.term]
    rfl

theorem legible (r : Row) : Legible r.chars r.tree := by
  have hclosing : Spells "]".toList [.symbol "]"] := Spells.sign (by decide) (by decide)
  cases r with
  | simple s => exact s.legible
  | array x e es =>
    have hassign : Spells "=".toList [.symbol "="] := Spells.sign (by decide) (by decide)
    have hitems := Core.spells_commaTree e.expr.spells es
    have hsquare := Spells.sign_append (s := "[") (by decide) (by decide) rfl
      (hitems.append hclosing (ends_cons rfl _))
    have hlex : ∀ t ∈ (commaTree e.expr.tree es).yield, isLexeme t = true :=
      Core.forall_mem_commaTree e.expr.lexemes rfl fun y _ => y.expr.lexemes
    obtain ⟨habove, hrespects⟩ := Core.respects_commaTree (e.expr.above (by decide))
      (e.expr.yields (by decide)) e.respects es
    refine ⟨?_, ?_, List.forall_mem_nil _, List.forall_mem_nil _, trivial, habove, hrespects⟩
    · have hchars : (array x e es).chars = x.chars ++ ' ' :: ("=".toList ++ ' ' :: ("[".toList ++
          ((e.expr.chars ++ es.flatMap fun y => ", ".toList ++ y.chars) ++ "]".toList))) := by
        simp only [chars, List.append_assoc]
        rfl
      rw [hchars]
      exact (Spells.name x).spaced (hassign.spaced hsquare)
    · refine List.forall_mem_cons.2 ⟨rfl, List.forall_mem_cons.2 ⟨rfl, List.forall_mem_cons.2 ⟨rfl, ?_⟩⟩⟩
      exact List.forall_mem_append.2 ⟨hlex, List.forall_mem_singleton.2 rfl⟩
  | member x i =>
    have hsquare := Spells.sign_append (s := "[") (by decide) (by decide) rfl
      (i.expr.spells.append hclosing (ends_cons rfl _))
    refine ⟨(Spells.name x).append hsquare (ends_cons rfl _), ?_, ?_⟩
    · refine List.forall_mem_cons.2 ⟨rfl, List.forall_mem_cons.2 ⟨rfl, ?_⟩⟩
      exact List.forall_mem_append.2 ⟨i.expr.lexemes, List.forall_mem_singleton.2 rfl⟩
    · exact ⟨List.forall_mem_nil _, i.expr.above (by decide), trivial, i.respects⟩

/-- The passes leave a line alone. -/
theorem visits (p : Tree.Pass) (hp : p ≠ .bracketValue) (r : Row) : Visits p.apply r.term r.term := by
  cases r with
  | simple s => exact s.visits p
  | array x e es =>
    have hinside : Visits p.apply (inside e es) (inside e es) := by
      unfold inside
      split
      · exact e.expr.visits p
      · refine p.visits_node rfl ?_
        induction e :: es with
        | nil => exact Tree.visitsAll_nil
        | cons y ys ih => exact Tree.visitsAll_cons (y.expr.visits p) ih
    have hbrackets : Visits p.apply (.phrase .brackets [inside e es]) (.phrase .brackets [inside e es]) := by
      refine Tree.visits_node (Tree.visitsAll_one hinside) ?_
      cases p <;> first | rfl | exact absurd rfl hp
    exact p.visits_node rfl (Tree.visitsAll_two (p.visits_token rfl) hbrackets)
  | member x i =>
    exact p.visits_node rfl (Tree.visitsAll_two (p.visits_token rfl) (i.expr.visits p))

theorem visitsAll (p : Tree.Pass) (hp : p ≠ .bracketValue) (rows : List Row) :
    VisitsAll p.apply (rows.map term) (rows.map term) := by
  induction rows with
  | nil => exact Tree.visitsAll_nil
  | cons r rows ih => exact Tree.visitsAll_cons (r.visits p hp) ih

end Row

/-! ## 2. Reading

A program of such lines is read like a core program: one heading, and the lines below it.  There is only one
block, so no recursion over blocks is needed. -/

/-- The program `main = (argc, argv) ->` with the lines below it. -/
def mainSource (rows : List Row) (ended : Bool) : String :=
  String.ofList (joinLines ended (Core.headingChars mainName argcName [argvName] ::
    rows.map fun r => spaces 2 ++ r.chars))

def mainLines (rows : List Row) : List Layout.Line :=
  [.mk (Core.headingTokens mainName argcName [argvName]) 2 (rows.map fun r => lineOf r.tree)]

theorem tokens_mainSource (rows : List Row) (ended : Bool) :
    Lexer.tokens (mainSource rows ended) = .ok (Layout.emitAll 0 (mainLines rows)) := by
  have hheading := Lexer.Read.single 0 (Core.spells_heading mainName argcName [argvName])
  have hread := hheading.append (Core.read_rows 2 Row.legible rows)
  rw [← List.append_nil (_ ++ Layout.emitAll _ _)] at hread
  exact Lexer.tokens_joinLines ended hread

/-- The program is one heading with these lines below it, so its syntax tree is put together from those of the
lines. -/
theorem parse_mainLines {rows : List Row} (hne : rows ≠ []) :
    Tree.parse (Layout.tree (Layout.emitAll 0 (mainLines rows))) =
      .ok (.phrase .block (mainTerms (rows.map Row.term))) := by
  have hregular : Layout.RegularAll 0 (mainLines rows) := by
    refine ⟨⟨by simp [Core.headingTokens], ?_, fun _ => ⟨by decide, ?_⟩,
      Core.regular_rows 2 Row.legible rows⟩, trivial⟩
    · exact fun t ht => Core.isPlain_of_isLexeme (Core.headingTokens_lexemes _ _ _ t ht)
    · rw [Core.headingTokens, List.dropLast_concat]
      exact fun t ht => (Core.headingStart_tokens _ _ _ t ht).2
  have hreads := Core.reads_heading (Core.headingTokens_lexemes mainName argcName [argvName])
    (Core.defineTree mainName argcName [argvName]) (Core.yield_defineTree mainName argcName [argvName])
    (Core.respects_defineTree mainName argcName [argvName]) 2 (by simpa using hne)
    (Core.reads_rows Row.legible Row.term_tree rows)
  rw [Core.term_defineTree] at hreads
  rw [Layout.tree_emitAll (by simp [mainLines]) hregular]
  refine Tree.parse_block (.cons hreads .nil) (Tree.visitsAll_one ?_) (Tree.visitsAll_one ?_)
  · exact Core.visits_parameters mainName argcName [argvName] (Row.visitsAll .nameParameters (by decide) rows)
  · exact Core.visits_arguments mainName argcName [argvName] (Row.visitsAll .bracketArguments (by decide) rows)

/-! ## 3. Programs with an array

A straight-line program with two lines more: one that writes the array down, somewhere among the assignments,
and one at the end that takes a member.  What the program gives back is stated without running it (`given`),
and the conditions are those of a straight-line program that computes the index. -/

/-- A straight-line program that writes down an array between two assignments and gives back one of the
members at the end. -/
structure Listing where
  before : List Assignment
  array : Name
  first : Arith
  others : List Arith
  after : List Assignment
  index : Arith

def Assignment.row (a : Assignment) : Row := .simple (.assign a.target a.rhs.formula)

/-- What is given back for an expression that has not been evaluated. -/
def Arith.asItIs : Arith → Int
  | literal n => numeralValue n
  | _ => 0

/-- What is given back for member `i` of an array that is written with these expressions.  A single one is
taken apart: with an operand on each side it is an array of two, and a literal or a name has no parts. -/
def given : List Arith → Nat → Except Error Int
  | [.literal _], _ => .error .wrongKind
  | [.var _], _ => .error .wrongKind
  | [.binary _ left _], _ => .ok left.asItIs
  | es, i => .ok ((es[i]?.map Arith.asItIs).getD 0)

namespace Listing

def items (c : Listing) : List Arith := c.first :: c.others

def rows (c : Listing) : List Row :=
  c.before.map Assignment.row ++
    .array c.array c.first.formula (c.others.map Arith.formula) ::
      (c.after.map Assignment.row ++ [.member c.array c.index.formula])

def source (c : Listing) (ended : Bool) : String := mainSource c.rows ended

/-- The program without the array.  It computes the index. -/
def rest (c : Listing) : Code := ⟨c.before ++ c.after, c.index⟩

/-- The assignments and the index can be computed, no numeral is too long, and the name of the array is
used for nothing else. -/
structure Proper (c : Listing) (argc : Nat) : Prop where
  inScope : c.rest.Scoped
  nonneg : c.rest.NonnegExponents argc
  short : c.rest.Short
  items_short : ∀ e ∈ c.items, e.Short
  lines_shallow : ∀ a ∈ c.rest.lines, nesting a.rhs.expr + 2 ≤ Eval.depthLimit
  index_shallow : nesting c.index.expr + 2 ≤ Eval.depthLimit
  fresh : c.array.text ∉ "argc" :: c.rest.lines.map (·.target.text)

end Listing

/-! ## 4. Lowering

The array is made when the program is lowered, from the members of what stands between the brackets.  With a
comma these are the expressions.  Without one there is a single expression, and its members are its operands,
if it has any. -/

/-- The members of the array that is made of these expressions. -/
def elements : List Arith → Except Error (List Term)
  | [e] => e.code.members
  | es => .ok (es.map Arith.code)

/-- Members are given back as they are. -/
theorem exitValue_code (e : Arith) : Program.exitValue e.code = e.asItIs := by
  cases e <;> rfl

/-- Literals have no brackets. -/
theorem exitValue_bracketedCode (o : Op) (e : Arith) :
    Program.exitValue (bracketedCode (o.bracketsLeft e.rank) e.code) = e.asItIs := by
  cases e with
  | literal n => cases o <;> rfl
  | var x => cases o <;> rfl
  | binary o' left right => cases o <;> cases o' <;> rfl

/-- There is a member for each index, and it is what is given back. -/
theorem given_of_elements {es : List Arith} {ts : List Term} (h : elements es = .ok ts) {i : Nat}
    (hi : i < es.length) : ∃ t, ts[i]? = some t ∧ given es i = .ok (Program.exitValue t) := by
  rcases es with _ | ⟨e, _ | ⟨e', es⟩⟩
  · cases hi
  · obtain rfl : i = 0 := Nat.lt_one_iff.1 hi
    cases e with
    | literal | var => cases h
    | binary o left right =>
      obtain rfl := Except.ok.inj h
      exact ⟨_, rfl, congrArg Except.ok (exitValue_bracketedCode o left).symm⟩
  · obtain rfl := Except.ok.inj h
    have hget : (e :: e' :: es)[i]? = some (e :: e' :: es)[i] := List.getElem?_eq_getElem hi
    refine ⟨(e :: e' :: es)[i].code, by rw [List.getElem?_map, hget]; rfl, ?_⟩
    rw [exitValue_code]
    simp only [given, hget, Option.map_some, Option.getD_some]

/-- If the array cannot be made, it does not matter which element is asked for. -/
theorem given_of_elements_error {es : List Arith} {e : Error} (h : elements es = .error e) (i : Nat) :
    given es i = .error e := by
  rcases es with _ | ⟨e₁, _ | ⟨e₂, es⟩⟩
  · cases h
  · cases e₁ with
    | literal | var =>
      obtain rfl := Except.error.inj h
      rfl
    | binary => cases h
  · cases h

theorem visitsAll_code {es : List Arith} (h : ∀ e ∈ es, e.Short) :
    VisitsAll Tree.lowerNode (es.map fun e => e.expr.term) (es.map Arith.code) := by
  induction es with
  | nil => exact Tree.visitsAll_nil
  | cons e es ih =>
    obtain ⟨he, hes⟩ := List.forall_mem_cons.1 h
    exact Tree.visitsAll_cons (e.visits_code he) (ih hes)

/-- Brackets make an array of the members of what stands between them. -/
theorem lower_brackets {t u : Term} (h : Visits Tree.lowerNode t u) :
    (Term.transformBelow Tree.lowerNode (.phrase .brackets [t])).bind Tree.lowerNode =
      u.members.map (Term.action .array) := by
  have hall : Term.transformAll Tree.lowerNode [t] = .ok [u] := Tree.visitsAll_one h
  simp only [Term.transformBelow, Term.phrase, hall, bind, Except.bind, pure, Except.pure]
  cases hu : u.members <;> simp [Tree.lowerNode, Tree.actionOfNode, Tree.actionOf, NodeKind.build, hu, bind,
    Except.bind, Except.map, pure, Except.pure, Term.action]

/-- Brackets are lowered after what stands between them.  With commas that is a list, whose members become
those of the array; without, it is the lowered expression itself, and its operands do. -/
theorem lower_array {e : Arith} {es : List Arith} (h : ∀ e' ∈ e :: es, e'.Short) :
    (Term.transformBelow Tree.lowerNode
      (.phrase .brackets [inside e.formula (es.map Arith.formula)])).bind Tree.lowerNode =
      (elements (e :: es)).map (Term.action .array) := by
  rcases es with _ | ⟨e', es⟩
  · exact lower_brackets (e.visits_code (h e List.mem_cons_self))
  · have hcomma : Visits Tree.lowerNode (.phrase .comma ((e :: e' :: es).map fun e => e.expr.term))
        (.phrase .comma ((e :: e' :: es).map Arith.code)) := Tree.visits_node (visitsAll_code h) rfl
    have hinside : inside e.formula ((e' :: es).map Arith.formula) =
        .phrase .comma ((e :: e' :: es).map fun e => e.expr.term) := by
      simp only [inside, List.map_cons, List.map_map, reduceCtorEq, if_false]
      rfl
    rw [hinside]
    exact lower_brackets hcomma

def Assignment.code (a : Assignment) : Term :=
  .action .assign [.datum .var (.text a.target.text), a.rhs.code]

theorem visitsAll_assignments {as : List Assignment} (h : ∀ a ∈ as, a.rhs.Short) :
    VisitsAll Tree.lowerNode (as.map fun a => a.row.term) (as.map Assignment.code) := by
  induction as with
  | nil => exact Tree.visitsAll_nil
  | cons a as ih =>
    obtain ⟨ha, has⟩ := List.forall_mem_cons.1 h
    have hkids := Tree.visitsAll_two (visits_name a.target.text) (a.rhs.visits_code ha)
    exact Tree.visitsAll_cons (Tree.visits_node hkids rfl) (ih has)

namespace Listing

variable {c : Listing}

/-- The body of `main`, if these are the members of the array. -/
def bodyCode (c : Listing) (ts : List Term) : List Term :=
  c.before.map Assignment.code ++
    .action .assign [.datum .var (.text c.array.text), .action .array ts] ::
      (c.after.map Assignment.code ++ [.action .subscript [.datum .var (.text c.array.text), c.index.code]])

theorem terms_rows (c : Listing) : c.rows.map Row.term =
    (c.before.map fun a => a.row.term) ++
      .phrase .assign [.word .id c.array.text,
        .phrase .brackets [inside c.first.formula (c.others.map Arith.formula)]] ::
      ((c.after.map fun a => a.row.term) ++
        [.phrase .subscript [.word .id c.array.text, c.index.expr.term]]) := by
  simp only [rows, List.map_append, List.map_cons, List.map_map, List.map_nil, Function.comp_def]
  rfl

/-- Lowering goes through the lines in order.  Only the array may fail to be lowered, since it is made from
the members of what is in the brackets. -/
theorem lower_rows {argc : Nat} (h : c.Proper argc) {ts : List Term} (hts : elements c.items = .ok ts) :
    Tree.lower (.phrase .block (mainTerms (c.rows.map Row.term))) = .ok (programWith (c.bodyCode ts)) := by
  obtain ⟨hbefore, hafter⟩ := List.forall_mem_append.1 h.short.1
  have harray : Visits Tree.lowerNode (.phrase .brackets [inside c.first.formula
      (c.others.map Arith.formula)]) (.action .array ts) := by
    unfold Visits
    rw [lower_array h.items_short]
    exact congrArg (Except.map _) hts
  have hassign := Tree.visits_node (f := Tree.lowerNode) (k := .phrase .assign) (s := none)
    (Tree.visitsAll_two (visits_name c.array.text) harray) rfl
  have hmember := Tree.visits_node (f := Tree.lowerNode) (k := .phrase .subscript) (s := none)
    (Tree.visitsAll_two (visits_name c.array.text) (c.index.visits_code h.short.2)) rfl
  rw [terms_rows]
  refine lower_mainTerms (Tree.visitsAll_append (visitsAll_assignments hbefore)
    (Tree.visitsAll_cons hassign ?_))
  exact Tree.visitsAll_append (visitsAll_assignments hafter) (Tree.visitsAll_one hmember)

/-- If there is no such array, the program cannot be lowered.  The lines above it can be, and those below are
not reached. -/
theorem lower_rows_error {argc : Nat} (h : c.Proper argc) {e : Error} (he : elements c.items = .error e) :
    Tree.lower (.phrase .block (mainTerms (c.rows.map Row.term))) = .error e := by
  obtain ⟨hbefore, -⟩ := List.forall_mem_append.1 h.short.1
  have harray : Tree.Fails Tree.lowerNode (.phrase .brackets [inside c.first.formula
      (c.others.map Arith.formula)]) e := by
    unfold Tree.Fails
    rw [lower_array h.items_short]
    exact congrArg (Except.map _) he
  have hassign := Tree.fails_node (k := .phrase .assign) (s := none)
    (Tree.transformAll_eq_error (Tree.visitsAll_one (visits_name c.array.text)) harray [])
  have hbody := Tree.fails_node (k := .phrase .block) (s := none)
    (Tree.transformAll_eq_error (visitsAll_assignments hbefore) hassign
      ((c.after.map fun a => a.row.term) ++ [.phrase .subscript [.word .id c.array.text, c.index.expr.term]]))
  have hparams : Visits Tree.lowerNode (.phrase .list [.word .id "argc", .word .id "argv"])
      (.phrase .list [.datum .var (.text "argc"), .datum .var (.text "argv")]) :=
    Tree.visits_node (Tree.visitsAll_two (visits_name _) (visits_name _)) rfl
  have hmain := Tree.fails_node (k := .phrase .lambda) (s := none)
    (Tree.transformAll_eq_error (Tree.visitsAll_one hparams) hbody [])
  have hprogram := Tree.fails_node (k := .phrase .assign) (s := none)
    (Tree.transformAll_eq_error (Tree.visitsAll_one (visits_name "main")) hmain [])
  rw [terms_rows]
  exact Tree.transform_eq_error rfl (Tree.transformAll_eq_error Tree.visitsAll_nil hprogram [])

end Listing

/-! ## 5. Running

The assignments before and after the array are run as those of any straight-line program.  The array is one
more name in the scope, which no expression uses, so it does not disturb the agreement between scope and
environment (`Ready`). -/

/-- The lines can be run, and none of them knows the name `x`. -/
structure Ready (x : String) (known : List String) (env : Env) (s : Scope Term) (as : List Assignment)
    (e : Arith) : Prop where
  agrees : Agrees known env s
  inScope : ScopedLines known as e
  nonneg : NonnegLines env as e
  fresh : x ∉ known

section Ready

variable {x : String} {known : List String} {env : Env} {s : Scope Term} {as bs : List Assignment} {e : Arith}

/-- They can still be run when `x` is bound. -/
theorem Ready.bind (h : Ready x known env s as e) (v : Term) : Ready x known env (s.set x v) as e := by
  refine ⟨fun y hy => ?_, h.inScope, h.nonneg, h.fresh⟩
  have hyx : y ≠ x := fun hyx => h.fresh (hyx ▸ hy)
  rw [Scope.get?_set, if_neg hyx]
  exact h.agrees y hy

/-- After an assignment the lines below it can be run. -/
theorem Ready.assign {a : Assignment} (h : Ready x known env s (a :: as) e) (ha : x ≠ a.target.text) :
    Ready x (a.target.text :: known) (env.set a.target.text (a.rhs.value env))
      (s.set a.target.text (.int (a.rhs.value env))) as e where
  agrees := h.agrees.set _ _
  inScope := h.inScope.2
  nonneg := h.nonneg.2
  fresh := List.not_mem_cons_of_ne_of_not_mem ha h.fresh

/-- Lines can be run in two parts: the second one starts in the world, and with the value, that the first one
ends with. -/
theorem run_block_append {r : Meaning} {ts : List Term} (us : List Term) {last v : Term} {w w' : World}
    (h : (Eval.block r last ts).run w = (.ok v, w')) :
    (Eval.block r last (ts ++ us)).run w = (Eval.block r v us).run w' := by
  induction ts generalizing last w with
  | nil =>
    obtain ⟨hv, rfl⟩ := Prod.mk.inj h
    obtain rfl := Except.ok.inj hv
    rfl
  | cons t ts ih =>
    unfold Eval.block at h
    obtain ⟨u, w₁, hu, hrest⟩ := ok_of_run_bind h
    rw [List.cons_append, Eval.block, run_bind_of_ok hu]
    exact ih hrest

/-- **Assignments** are made one by one, and the lines below them can be run then.  The induction is on the
assignments; that the name of the array is none of theirs keeps its value while the lines after it are run. -/
theorem run_assignments {m : Nat} (last : Term) {w : World} (h : Ready x known env w.scope (as ++ bs) e)
    (hdepth : ∀ a ∈ as, nesting a.rhs.expr + 1 ≤ m) (has : ∀ a ∈ as, x ≠ a.target.text) :
    ∃ v known' w', (Eval.block (Eval.meaning m) last (as.map Assignment.code)).run w = (.ok v, w') ∧
      Ready x known' (runLines env as) w'.scope bs e ∧ w'.scope.get? x = w.scope.get? x := by
  induction as generalizing known env w last with
  | nil => exact ⟨last, known, w, rfl, h, rfl⟩
  | cons a as ih =>
    obtain ⟨hd, hdepth⟩ := List.forall_mem_cons.1 hdepth
    obtain ⟨ha, has⟩ := List.forall_mem_cons.1 has
    obtain ⟨k, rfl⟩ : ∃ k, m = k + 1 := ⟨m - 1, by omega⟩
    have hvalue := Arith.means_code h.agrees h.inScope.1 h.nonneg.1 k (by omega)
    obtain ⟨v, known', w', hrest, hready, hget⟩ :=
      ih (w := { w with scope := w.scope.set a.target.text (.int (a.rhs.value env)) })
        (.int (a.rhs.value env)) (h.assign ha) hdepth has
    refine ⟨v, known', w', ?_, hready, ?_⟩
    · rw [List.map_cons, Eval.block]
      exact (run_bind_of_ok (Eval.run_assign hvalue none none a.target.text) _).trans hrest
    · rw [hget, Scope.get?_set, if_neg ha]

end Ready

theorem runLines_append (env : Env) (as bs : List Assignment) :
    runLines env (as ++ bs) = runLines (runLines env as) bs := by
  induction as generalizing env with
  | nil => rfl
  | cons a as ih => exact ih _

/-- The member that is taken is not evaluated. -/
theorem run_subscript {m : Nat} {w : World} {x : String} {ts : List Term} {t index : Term} {i : Nat}
    (hx : w.scope.get? x = some (.action .array ts)) (ht : ts[i]? = some t)
    (hindex : ((Eval.meaning (m + 1)).eval index).run w = (.ok (.int i), w)) :
    ((Eval.meaning (m + 2)).eval (.action .subscript [.datum .var (.text x), index])).run w = (.ok t, w) := by
  have hbinary : binary .subscript (.action .array ts) (.int i) = .ok t := by
    have hnonneg : ¬ (i : Int) < 0 := by omega
    show memberAt ts i = .ok t
    simp only [memberAt, if_neg hnonneg, Int.toNat_natCast, ht]
  show (do
    let left ← (Eval.meaning (m + 1)).eval (.datum .var (.text x))
    let right ← (Eval.meaning (m + 1)).eval index
    liftM (binary .subscript left right) : Eval Term).run w = _
  rw [run_bind_of_ok (means_var hx (m + 1) (by omega)), run_bind_of_ok hindex, hbinary]
  rfl

namespace Listing

variable {c : Listing}

theorem Proper.ne_target {argc : Nat} (h : c.Proper argc) :
    ∀ a ∈ c.before ++ c.after, c.array.text ≠ a.target.text := by
  intro a ha he
  refine h.fresh (List.mem_cons_of_mem _ ?_)
  rw [he]
  exact List.mem_map_of_mem ha

theorem Proper.ready {argc : Nat} (h : c.Proper argc) {s : Scope Term}
    (hs : s.get? "argc" = some (.int argc)) :
    Ready c.array.text ["argc"] (start argc) s (c.before ++ c.after) c.index where
  agrees := List.forall_mem_singleton.2 hs
  inScope := h.inScope
  nonneg := h.nonneg
  fresh hx := h.fresh (List.mem_singleton.1 hx ▸ List.mem_cons_self)

/-- The body of `main` gives back a member of the array: the assignments above it are made, the array is bound
as it is, those below are made, and then the index is computed and the member taken. -/
theorem run_bodyCode {argc i : Nat} (h : c.Proper argc) (hi : c.rest.value argc = i) {ts : List Term} {t : Term}
    (ht : ts[i]? = some t) {w : World} (hw : w.scope.get? "argc" = some (.int argc)) :
    ∃ w', (Eval.enterBody (Eval.meaning Eval.depthLimit) (mainWith (c.bodyCode ts))).run w = (.ok t, w') := by
  -- the block of the body takes one level, and an assignment or a subscript another one
  obtain ⟨m, hm⟩ : ∃ m, Eval.depthLimit = m + 3 := ⟨_, rfl⟩
  obtain ⟨hbefore, hafter⟩ := List.forall_mem_append.1 h.lines_shallow
  have hindex := h.index_shallow
  rw [hm] at hbefore hafter hindex
  obtain ⟨hfresh₁, hfresh₂⟩ := List.forall_mem_append.1 h.ne_target
  obtain ⟨v₁, known₁, w₁, hrun₁, hready₁, -⟩ := run_assignments .nothing (m := m + 2) (h.ready hw)
    (fun a ha => by have := hbefore a ha; omega) hfresh₁
  let w₂ : World := { w₁ with scope := w₁.scope.set c.array.text (.action .array ts) }
  -- the array is its own value
  have hassign : ((Eval.meaning (m + 2)).eval
      (.action .assign [.datum .var (.text c.array.text), .action .array ts])).run w₁ =
      (.ok (.action .array ts), w₂) := Eval.run_assign rfl none none _
  have hready₂ : Ready c.array.text known₁ (runLines (start argc) c.before) w₂.scope (c.after ++ [])
      c.index := by
    rw [List.append_nil]
    exact hready₁.bind _
  obtain ⟨v₃, known₃, w₃, hrun₃, hready₃, hget⟩ := run_assignments (.action .array ts) (m := m + 2) hready₂
    (fun a ha => by have := hafter a ha; omega) hfresh₂
  have harray : w₃.scope.get? c.array.text = some (.action .array ts) := by
    rw [hget, Scope.get?_set, if_pos rfl]
  have hvalue := Arith.means_code hready₃.agrees hready₃.inScope hready₃.nonneg (m + 1) (by omega)
  have hi : c.index.value (runLines (start argc) (c.before ++ c.after)) = i := hi
  rw [← runLines_append, hi] at hvalue
  refine ⟨w₃, ?_⟩
  rw [hm]
  show (Eval.block (Eval.meaning (m + 2)) .nothing (c.bodyCode ts)).run w = _
  rw [bodyCode, run_block_append _ hrun₁, Eval.block, run_bind_of_ok hassign,
    run_block_append _ hrun₃, Eval.block, run_bind_of_ok (run_subscript harray ht hvalue)]
  rfl

end Listing

/-! ## 6. The whole way

Text, tree, code and result, one stage after the other.  There are two ways, one for arrays that can be made
and one for those that cannot; in the second case it is lowering that fails. -/

theorem writable_mainLines (rows : List Row) : WritableAll (Layout.emitAll 0 (mainLines rows)) := by
  have hrows : WritableAll (Layout.emitAll 2 (rows.map fun r => lineOf r.tree)) := by
    induction rows with
    | nil => trivial
    | cons r rows ih =>
      exact ⟨small_lt 2 (by decide), Term.writableAll_append.2 ⟨writable_lineOf r.legible, ih⟩⟩
  refine ⟨small_lt 0 (by decide), Term.writableAll_append.2 ⟨Term.writableAll_append.2 ⟨?_, hrows⟩, trivial⟩⟩
  exact Term.writableAll_iff.2 fun t ht => writable_of_isLexeme (Core.headingTokens_lexemes _ _ _ t ht)

theorem parse_mainSource {rows : List Row} (hne : rows ≠ []) (ended : Bool) :
    Program.parse (mainSource rows ended) = .ok (.phrase .block (mainTerms (rows.map Row.term))) := by
  rw [Program.parse, tokens_mainSource]
  exact parse_mainLines hne

/-- A program of such lines is read as it is meant, whatever is kept in the journal. -/
theorem leads_read_mainSource (f : Journal.Filter) {rows : List Row} (hne : rows ≠ []) (ended : Bool)
    (d : Desk) :
    Program.Leads (Program.read f (mainSource rows ended)) d
      (.ok (.phrase .block (mainTerms (rows.map Row.term)))) d := by
  have hread := Program.leads_read f (tokens_mainSource rows ended) (writable_mainLines rows) d
  rwa [parse_mainLines hne] at hread

namespace Listing

variable {c : Listing}

theorem rows_ne_nil (c : Listing) : c.rows ≠ [] := by simp [rows]

/-- **A program that gives back an element**, through all stages: the text is read, lowered and run, and all
that the journal records on the way can be written. -/
theorem run_source_ok (args : List String) (f : Journal.Filter) (k : Host) (ended : Bool)
    (h : c.Proper args.length) {i : Nat} (hi : c.rest.value args.length = i) {ts : List Term}
    (hts : elements c.items = .ok ts) {t : Term} (ht : ts[i]? = some t) :
    (Program.outcome f k (c.source ended) args false).1 = .ok (Program.exitValue t) := by
  have hwritable := Tree.writable_parse (parse_mainSource c.rows_ne_nil ended)
  have hcode := Tree.writable_lower hwritable (lower_rows h hts)
  let top : World := { toHost := k, scope := ({} : Scope Term).set "main" (mainWith (c.bodyCode ts)) }
  have heval : (programWith (c.bodyCode ts)).eval.run { toHost := k } = (.ok (mainWith (c.bodyCode ts)), top) :=
    run_programWith k _ (by decide)
  have hshown : ∃ s, top.scope.shown? = some s := by
    refine Scope.shown?_of_writable fun e he => ?_
    obtain rfl := List.mem_singleton.1 he
    exact hcode.1.2.1
  obtain ⟨w', hcall⟩ := run_callMain_of_body args (w := top) rfl fun _ hargc => run_bodyCode h hi ht hargc
  have hrun := Program.leads_runTree f (d := .start k) hwritable (lower_rows h hts) hcode heval hshown rfl hcall
  have hend := Program.leads_run f (leads_read_mainSource f c.rows_ne_nil ended (.start k)) hrun
  exact congrArg Prod.fst (Program.outcome_of_leads hend)

/-- **A program whose array cannot be made** fails when it is lowered, before anything is run. -/
theorem run_source_error (args : List String) (f : Journal.Filter) (k : Host) (ended : Bool)
    (h : c.Proper args.length) {e : Error} (he : elements c.items = .error e) :
    (Program.outcome f k (c.source ended) args false).1 = .error e := by
  have hwritable := Tree.writable_parse (parse_mainSource c.rows_ne_nil ended)
  have hlower := Program.leads_lowerTree_lower f hwritable (.start k)
  rw [lower_rows_error h he] at hlower
  have hrun : Program.Leads (Program.runTree f (.phrase .block (mainTerms (c.rows.map Row.term))) args false)
      (.start k) (.error e) (.start k) := hlower.bind_error
  have hend := Program.leads_run f (leads_read_mainSource f c.rows_ne_nil ended (.start k)) hrun
  exact congrArg Prod.fst (Program.outcome_of_leads hend)

end Listing

theorem given_of_two_le {es : List Arith} {i : Nat} (h : 2 ≤ es.length) (hi : i < es.length) :
    given es i = .ok es[i].asItIs := by
  rcases es with _ | ⟨e, _ | ⟨e', es⟩⟩
  · cases h
  · cases Nat.not_succ_le_self 1 h
  · simp only [given, List.getElem?_eq_getElem hi, Option.map_some, Option.getD_some]

/-- An expression that is given back as it is written has its own value only if it is a literal, or if that
value is 0, which is what is given back for everything else. -/
theorem asItIs_eq_value_iff (e : Arith) (env : Env) :
    e.asItIs = e.value env ↔ (∃ n, e = .literal n) ∨ e.value env = 0 := by
  cases e with
  | literal n => exact ⟨fun _ => .inl ⟨n, rfl⟩, fun _ => rfl⟩
  | var x => simp [Arith.asItIs, eq_comm]
  | binary o left right => simp [Arith.asItIs, eq_comm]

/-- **Members of arrays are not evaluated.**  A program that gives back a member of an array gives it back as
it is written: the integer if it is a literal, and 0 if it is not.  So in an array of two members or more it
gives back the value that the member had where the array was written only if the member is a literal, or if
that value happens to be 0.  A literal or a variable cannot be the only member, and of any other expression
that is the only member the left operand is given back. -/
theorem outcome_listing (c : Listing) (args : List String) (f : Journal.Filter) (k : Host) (ended : Bool)
    (h : c.Proper args.length) {i : Nat} (hi : c.rest.value args.length = i) (hlt : i < c.items.length) :
    (Program.outcome f k (c.source ended) args false).1 = given c.items i ∧
    (2 ≤ c.items.length →
      ((Program.outcome f k (c.source ended) args false).1 =
          .ok (c.items[i].value (runLines (start args.length) c.before)) ↔
        (∃ n, c.items[i] = .literal n) ∨ c.items[i].value (runLines (start args.length) c.before) = 0)) := by
  have hgiven : (Program.outcome f k (c.source ended) args false).1 = given c.items i := by
    cases hts : elements c.items with
    | error e => rw [Listing.run_source_error args f k ended h hts, given_of_elements_error hts]
    | ok ts =>
      obtain ⟨t, ht, hgiven⟩ := given_of_elements hts hlt
      rw [Listing.run_source_ok args f k ended h hi hts ht, hgiven]
  refine ⟨hgiven, fun htwo => ?_⟩
  rw [hgiven, given_of_two_le htwo hlt, Except.ok.injEq]
  exact asItIs_eq_value_iff _ _

/-- The literal of one digit, the last one of `n`. -/
def digit (n : Nat) : Arith := .literal ⟨[⟨n % 10, Nat.mod_lt n (by decide)⟩], List.cons_ne_nil _ _⟩

/-- An array with a literal in its middle, and a variable that is assigned again below it. -/
def threeMembers : Listing :=
  let big : Name := ⟨'b', ['i', 'g'], by decide, List.all_eq_true.1 (by decide), by decide, by decide⟩
  let nth : Name := ⟨'n', ['t', 'h'], by decide, List.all_eq_true.1 (by decide), by decide, by decide⟩
  { before := [⟨big, digit 5⟩]
    array := ⟨'l', ['i', 's', 't'], by decide, List.all_eq_true.1 (by decide), by decide, by decide⟩
    first := .binary .mul (.var big) (digit 2)
    others := [digit 7, .var big]
    after := [⟨big, digit 9⟩, ⟨nth, .binary .sub (.var argcName) (digit 1)⟩]
    index := .var nth }

theorem proper_threeMembers : threeMembers.Proper 2 where
  inScope := by decide
  nonneg := by decide
  short := by decide
  items_short := by decide
  lines_shallow := by decide
  index_shallow := by decide
  fresh := by decide

theorem outcome_listing_threeMembers :
    threeMembers.source true = "main = (argc, argv) ->\n  big = 5\n  list = [big * 2, 7, big]\n" ++
      "  big = 9\n  nth = argc - 1\n  list[nth]\n" ∧
    threeMembers.Proper 2 ∧ threeMembers.rest.value 2 = 1 ∧ 1 < threeMembers.items.length ∧
    (Program.outcome {} {} (threeMembers.source true) ["prog", "a"] false).1 = .ok 7 := by
  have hi : threeMembers.rest.value 2 = (1 : Nat) := by decide
  have hlt : 1 < threeMembers.items.length := by decide
  exact ⟨by decide +kernel, proper_threeMembers, hi, hlt,
    (outcome_listing threeMembers ["prog", "a"] {} {} true proper_threeMembers hi hlt).1⟩

/-- The first member of an array is given back. -/
def firstOf (array : Name) (before : List Assignment) (first : Arith) (others : List Arith) : Listing :=
  { before, array, first, others, after := [], index := digit 0 }

/-- A variable that is 5 is given back as 0, and a single literal cannot be written. -/
theorem outcomes_firstOf :
    Program.outcome { otherwise := false } {} "main = (argc, argv) ->\n  x = 5\n  arr = [x, 2]\n  arr[0]\n"
      ["prog"] false = (.ok 0, "") ∧
    Program.outcome { otherwise := false } {} "main = (argc, argv) ->\n  arr = [5]\n  arr[0]\n"
      ["prog"] false = (.error .wrongKind, "") := by
  let x : Name := ⟨'x', [], by decide, List.all_eq_true.1 (by decide), by decide, by decide⟩
  let arr : Name := ⟨'a', ['r', 'r'], by decide, List.all_eq_true.1 (by decide), by decide, by decide⟩
  have hvar : Program.parse "main = (argc, argv) ->\n  x = 5\n  arr = [x, 2]\n  arr[0]\n" =
      .ok (.phrase .block (mainTerms [
        .phrase .assign [.word .id "x", .word .int "5"],
        .phrase .assign [.word .id "arr", .phrase .brackets [.phrase .comma [.word .id "x", .word .int "2"]]],
        .phrase .subscript [.word .id "arr", .word .int "0"]])) :=
    parse_mainSource (firstOf arr [⟨x, digit 5⟩] (.var x) [digit 2]).rows_ne_nil true
  have hliteral : Program.parse "main = (argc, argv) ->\n  arr = [5]\n  arr[0]\n" =
      .ok (.phrase .block (mainTerms [
        .phrase .assign [.word .id "arr", .phrase .brackets [.word .int "5"]],
        .phrase .subscript [.word .id "arr", .word .int "0"]])) :=
    parse_mainSource (firstOf arr [] (digit 5) []).rows_ne_nil true
  constructor
  · rw [Program.outcome_eq_playThrough (Program.length_lt_writingBound (by decide))]
    unfold Program.playThrough Program.statements
    rw [hvar]
    rfl
  · rw [Program.outcome_eq_playThrough (Program.length_lt_writingBound (by decide))]
    unfold Program.playThrough Program.statements
    rw [hliteral]
    rfl

end StraightLine

end Offside
