import Mathlib.Algebra.Ring.Int.Parity
import Offside.Proofs.Core.Reading
import Offside.Proofs.Eval.Depth
import Offside.Proofs.Program.Steps
import Offside.Proofs.Scope.Lookup
import Offside.Proofs.StraightLine.Basic
/-!
# Straight-line programs compute what they are meant to

A straight-line program, written as a text, read and run, gives back the integer that it computes
(`run_source_eq_value`).  It is read as it is meant because it is a core program; what is left is the way
from the syntax tree to the integer:

* Lowering turns numerals into integers and names into variables (`Code.lower_program`).
* Where the scope agrees with the environment, the term of an expression has the value of the expression
  (`Arith.means_code`).  It needs as many levels of evaluation as the expression is nested.
* An assignment keeps scope and environment in agreement (`Agrees.set`), so at the end of the body the last
  expression has the value of the program (`run_codeOf`).
* No line of the journal is too long to be written, so it does not matter which lines are kept (section 6).

The conditions keep out what may fail or is no integer: names without a value, numerals with too many
digits, expressions nested too deeply, and powers with a negative exponent.
-/

namespace Offside

namespace StraightLine

open Lexer (Name Numeral)
open Term (WritableAll)
open Offside.Tree (Visits VisitsAll)

/-! ## 1. Numerals

A numeral of the lexer is read by the same function that reads any text as an integer, and that function
trims, looks for a sign and for underscores, and then takes digits of all scripts.  On plain digits all of it
comes down to the number they denote. -/

theorem digitValue?_digitChar (d : Fin 10) : Text.digitValue? (Lexer.digitChar d) = some d.val := by
  revert d
  decide

theorem digitChar_ne (d : Fin 10) :
    Lexer.digitChar d ≠ '_' ∧ Lexer.digitChar d ≠ '-' ∧ Lexer.digitChar d ≠ '+' := by
  revert d
  decide

theorem numeral_chars (n : Numeral) : Text.numeral n.chars = numeralValue n := by
  unfold Text.numeral numeralValue Lexer.Numeral.chars
  rw [List.foldl_map]
  simp only [digitValue?_digitChar, Option.getD_some]

/-- Digits are a run of digits. -/
theorem digitRun?_map (d : Fin 10) (ds : List (Fin 10)) :
    Text.digitRun? ((d :: ds).map Lexer.digitChar) = some ((d :: ds).map Lexer.digitChar) := by
  induction ds generalizing d with
  | nil => simp [Text.digitRun?, Lexer.isDigit_digitChar]
  | cons d' ds ih =>
    have ih := ih d'
    simp only [List.map_cons] at ih ⊢
    rw [Text.digitRun?, if_pos (Lexer.isDigit_digitChar d), ih]
    · rfl
    · intro he
      cases he
    · intro rest he
      exact absurd (List.cons.inj he).1 (digitChar_ne d').1

/-- Where there is nothing blank there is nothing to trim. -/
theorem trim_of_not_blank {cs : List Char} (h : ∀ c ∈ cs, Text.isBlank c = false) :
    Text.trim cs = cs := by
  have hdrop : ∀ l : List Char, (∀ c ∈ l, Text.isBlank c = false) → l.dropWhile Text.isPadding = l := by
    intro l hl
    cases l with
    | nil => rfl
    | cons c l =>
      have hc : Text.isPadding c = false := by rw [Text.isPadding, hl c List.mem_cons_self, Bool.false_and]
      rw [List.dropWhile_cons, hc, if_neg (by decide)]
  unfold Text.trim
  rw [hdrop cs h, hdrop cs.reverse (fun c hc => h c (List.mem_reverse.1 hc)), List.reverse_reverse]

/-- A numeral that is not too long is read as the number that it denotes.  It has digits only, so there is
nothing to trim and no sign or underscore to look for. -/
theorem integer?_numeral {n : Numeral} (h : n.digits.length ≤ Text.digitLimit) :
    Text.integer? (String.ofList n.chars) = some (numeralValue n : Int) := by
  have htrim : Text.trim n.chars = n.chars := by
    refine trim_of_not_blank fun c hc => ?_
    obtain ⟨d, -, rfl⟩ := List.mem_map.1 hc
    exact Lexer.isBlank_digitChar d
  have hrun : Text.digitRun? n.chars = some n.chars := by
    obtain ⟨ds, hne⟩ := n
    obtain ⟨d, ds, rfl⟩ := List.exists_cons_of_ne_nil hne
    exact digitRun?_map d ds
  have hlen : n.chars.length ≤ Text.digitLimit := by
    rw [Lexer.Numeral.chars, List.length_map]
    exact h
  obtain ⟨d, cs, hcs⟩ := n.chars_eq_cons
  simp only [Text.integer?, String.toList_ofList, htrim]
  split
  · rename_i he
    exact absurd (List.cons.inj (hcs.symm.trans he)).1 (digitChar_ne d).2.1
  · rename_i he
    exact absurd (List.cons.inj (hcs.symm.trans he)).1 (digitChar_ne d).2.2
  · rw [hrun, Option.bind_some, if_pos hlen, numeral_chars]
    rfl

/-! ## 2. Lowering

What the tree of a program is lowered to, by kinds of terms.  Brackets that were written stay in the code,
since they take a level of depth. -/

def Op.action : Op → Action
  | add => .add
  | sub => .sub
  | mul => .mul
  | pow => .pow

/-- A term that can be run, with its brackets. -/
def bracketedCode (needed : Bool) (t : Term) : Term := if needed then .action .parens [t] else t

/-- What an expression is lowered to. -/
def Arith.code : Arith → Term
  | literal n => .int (numeralValue n)
  | var x => .datum .var (.text x.text)
  | binary o left right => .action o.action
      [bracketedCode (o.bracketsLeft left.rank) left.code,
        bracketedCode (o.bracketsRight right.rank) right.code]

theorem visits_bracketed (b : Bool) {e : Core.Expr} {t : Term} (h : Visits Tree.lowerNode e.term t) :
    Visits Tree.lowerNode (bracketed b e).term (bracketedCode b t) := by
  cases b with
  | false => exact h
  | true => exact Tree.visits_node (Tree.visitsAll_one h) rfl

/-- An expression is lowered from its leaves up.  A short numeral becomes its number. -/
theorem Arith.visits_code {e : Arith} (h : e.Short) : Visits Tree.lowerNode e.expr.term e.code := by
  induction e with
  | literal n =>
    refine Tree.visits_token rfl ?_
    have hnumber : (Term.text (String.ofList n.chars)).toNumber = .ok (numeralValue n : Int) := by
      simp only [Term.toNumber, integer?_numeral h]
    show (LeafKind.datum .int).build [.text (String.ofList n.chars)] = _
    simp only [LeafKind.build, hnumber, bind, Except.bind]
    rfl
  | var x => exact Tree.visits_token rfl rfl
  | binary o left right ihl ihr =>
    have hleft := visits_bracketed (o.bracketsLeft left.rank) (ihl h.1)
    have hright := visits_bracketed (o.bracketsRight right.rank) (ihr h.2)
    refine Tree.visits_node (Tree.visitsAll_two hleft hright) ?_
    cases o <;> rfl

theorem visits_name (s : String) : Visits Tree.lowerNode (.word .id s) (.datum .var (.text s)) :=
  Tree.visits_token rfl rfl

/-- What the body of `main` is lowered to. -/
def codeOf : List Assignment → Arith → List Term
  | [], e => [e.code]
  | a :: as, e =>
    .action .assign [.datum .var (.text a.target.text), a.rhs.code] :: codeOf as e

theorem visits_codeOf {as : List Assignment} {e : Arith} (has : ∀ a ∈ as, a.rhs.Short) (he : e.Short) :
    VisitsAll Tree.lowerNode (bodyOf as e).terms (codeOf as e) := by
  induction as with
  | nil => exact Tree.visitsAll_one (e.visits_code he)
  | cons a as ih =>
    obtain ⟨ha, has⟩ := List.forall_mem_cons.1 has
    have hkids := Tree.visitsAll_two (visits_name a.target.text) (a.rhs.visits_code ha)
    exact Tree.visitsAll_cons (Tree.visits_node hkids rfl) (ih has)

/-- The function `main` with a body that can be run. -/
def mainWith (body : List Term) : Term :=
  .action .func [.phrase .list [.datum .var (.text "argc"), .datum .var (.text "argv")],
    .action .block body]

/-- The program that binds `main`. -/
def programWith (body : List Term) : Term :=
  .action .block [.action .assign [.datum .var (.text "main"), mainWith body]]

/-- The syntax tree of `main = (argc, argv) ->` with a body. -/
def mainTerms (body : List Term) : List Term :=
  [.phrase .assign [.word .id "main",
    .phrase .lambda [.phrase .list [.word .id "argc", .word .id "argv"], .phrase .block body]]]

/-- A `main` with these lines is lowered to one with the lowered lines.  Its parameters are names and stay a
list. -/
theorem lower_mainTerms {ts us : List Term} (h : VisitsAll Tree.lowerNode ts us) :
    Tree.lower (.phrase .block (mainTerms ts)) = .ok (programWith us) := by
  have hbody : Visits Tree.lowerNode (.phrase .block ts) (.action .block us) := Tree.visits_node h rfl
  have hparams : Visits Tree.lowerNode (.phrase .list [.word .id "argc", .word .id "argv"])
      (.phrase .list [.datum .var (.text "argc"), .datum .var (.text "argv")]) :=
    Tree.visits_node (Tree.visitsAll_two (visits_name _) (visits_name _)) rfl
  have hmain : Visits Tree.lowerNode (.phrase .lambda
      [.phrase .list [.word .id "argc", .word .id "argv"], .phrase .block ts]) (mainWith us) :=
    Tree.visits_node (Tree.visitsAll_two hparams hbody) rfl
  have hall : VisitsAll Tree.lowerNode (mainTerms ts)
      [.action .assign [.datum .var (.text "main"), mainWith us]] :=
    Tree.visitsAll_one (Tree.visits_node (Tree.visitsAll_two (visits_name "main") hmain) rfl)
  exact Tree.transform_eq_node rfl hall

namespace Code

/-- The function `main`. -/
def mainCode (c : Code) : Term :=
  .action .func [.phrase .list [.datum .var (.text "argc"), .datum .var (.text "argv")],
    .action .block (codeOf c.lines c.result)]

/-- The whole program. -/
def code (c : Code) : Term :=
  .action .block [.action .assign [.datum .var (.text "main"), c.mainCode]]

theorem lower_program {c : Code} (h : c.Short) :
    Tree.lower (.phrase .block c.program.terms) = .ok c.code :=
  lower_mainTerms (visits_codeOf h.1 h.2)

end Code

/-! ## 3. Operations

Powers are computed from the size of the base, and the sign is put back for odd exponents.  For exponents that
are not negative this is the power of the integers. -/

/-- Powers of integers are powers: the size and the sign are found apart. -/
theorem natPower_eq (x : Int) (n : Nat) : natPower x n = x ^ n := by
  have hsize : (if x.natAbs = 1 then 1 else if x = 0 then (if n = 0 then 1 else 0) else x.natAbs.pow n)
      = x.natAbs ^ n := by
    split
    · rename_i h
      rw [h, Nat.one_pow]
    · split
      · rename_i h
        subst h
        cases n with
        | zero => rfl
        | succ n => simp
      · rfl
  unfold natPower
  simp only [hsize, Int.natCast_pow]
  by_cases hx : x < 0
  · have habs : (x.natAbs : Int) = -x := by omega
    rcases Nat.even_or_odd n with hn | hn
    · simp [habs, hn.neg_pow, Nat.even_iff.1 hn]
    · simp [habs, hx, hn.neg_pow, Nat.odd_iff.1 hn]
  · have habs : (x.natAbs : Int) = x := by omega
    simp [hx, habs]

/-- On integers an operation does what it does in mathematics, unless an exponent is negative. -/
theorem binary_int (o : Op) {x y : Int} (h : o = .pow → 0 ≤ y) :
    binary o.action (.int x) (.int y) = .ok (.int (o.apply x y)) := by
  cases o with
  | add => rfl
  | sub => rfl
  | mul => rfl
  | pow =>
    show (intPower x y).map Term.int = _
    rw [intPower, if_pos (h rfl), natPower_eq]
    rfl

/-! ## 4. Expressions

`Means` says at which depths a term has a value, because the depth that an expression needs is the point at
which a run could fail.  Nothing in an expression changes the world. -/

/-- The scope gives these names the values that they have in the environment. -/
def Agrees (known : List String) (env : Env) (s : Scope Term) : Prop :=
  ∀ x ∈ known, s.get? x = some (.int (env x))

theorem Agrees.set {known : List String} {env : Env} {s : Scope Term} (h : Agrees known env s)
    (x : String) (v : Int) : Agrees (x :: known) (env.set x v) (s.set x (.int v)) := by
  intro y hy
  rw [Scope.get?_set]
  by_cases hyx : y = x
  · rw [if_pos hyx, Env.set, if_pos hyx]
  · rw [if_neg hyx, Env.set, if_neg hyx]
    exact h y ((List.mem_cons.1 hy).resolve_left hyx)

/-- The term has this value and leaves the world as it is, at every depth from `n` on. -/
def Means (n : Nat) (w : World) (t v : Term) : Prop :=
  ∀ m, n ≤ m → ((Eval.meaning m).eval t).run w = (.ok v, w)

theorem means_int (w : World) (x : Int) : Means 1 w (.int x) (.int x) := by
  intro m hm
  obtain ⟨m, rfl⟩ : ∃ k, m = k + 1 := ⟨m - 1, by omega⟩
  rfl

theorem means_var {w : World} {x : String} {v : Term} (h : w.scope.get? x = some v) :
    Means 1 w (.datum .var (.text x)) v := by
  intro m hm
  obtain ⟨m, rfl⟩ : ∃ k, m = k + 1 := ⟨m - 1, by omega⟩
  exact Eval.run_var h m none

/-- Brackets take one level and change no value. -/
theorem means_bracketed (b : Bool) {e : Core.Expr} {w : World} {t v : Term}
    (h : Means (nesting e) w t v) : Means (nesting (bracketed b e)) w (bracketedCode b t) v := by
  cases b with
  | false => exact h
  | true =>
    intro m hm
    have hm : nesting e + 1 ≤ m := hm
    obtain ⟨m, rfl⟩ : ∃ k, m = k + 1 := ⟨m - 1, by omega⟩
    exact h m (by omega)

/-- An operation needs one level more than the deeper of its operands. -/
theorem means_binary (o : Op) {n k : Nat} {w : World} {l r : Term} {x y : Int}
    (hl : Means n w l (.int x)) (hr : Means k w r (.int y)) (h : o = .pow → 0 ≤ y) :
    Means (max n k + 1) w (.action o.action [l, r]) (.int (o.apply x y)) := by
  intro m hm
  obtain ⟨m, rfl⟩ : ∃ k, m = k + 1 := ⟨m - 1, by omega⟩
  have hstep : (Eval.meaning (m + 1)).eval (.action o.action [l, r]) =
      ((Eval.meaning m).eval l >>= fun left => (Eval.meaning m).eval r >>= fun right =>
        liftM (binary o.action left right)) := by
    cases o <;> rfl
  rw [hstep, run_bind_of_ok (hl m (by omega)), run_bind_of_ok (hr m (by omega)), binary_int o h]
  rfl

/-- **An expression has its value.**  Induction on the expression: literals and names take one level, brackets
one more than what they enclose, and an operation is applied to the values of its operands. -/
theorem Arith.means_code {known : List String} {env : Env} {w : World} (hw : Agrees known env w.scope)
    {e : Arith} (hs : e.Scoped known) (hx : e.NonnegExponents env) :
    Means (nesting e.expr) w e.code (.int (e.value env)) := by
  induction e with
  | literal n => exact means_int w _
  | var x => exact means_var (hw x.text hs)
  | binary o left right ihl ihr =>
    exact means_binary o (means_bracketed _ (ihl hs.1 hx.1)) (means_bracketed _ (ihr hs.2 hx.2.1)) hx.2.2

/-! ## 5. Programs

The lines of the body are run in order, with a scope that agrees with the environment on the names that are
known.  Around that there is the call of `main`: a new frame, in which the number of arguments is bound,
inside of the one where `main` is. -/

/-- **The body of `main` gives back what the program computes.**  The assignments are made one by one,
and the scope agrees with the environment after each of them. -/
theorem run_codeOf {m : Nat} {as : List Assignment} {e : Arith} {known : List String}
    {env : Env} {w : World} (last : Term) (hw : Agrees known env w.scope)
    (hs : ScopedLines known as e) (hx : NonnegLines env as e)
    (has : ∀ a ∈ as, nesting a.rhs.expr + 1 ≤ m) (he : nesting e.expr ≤ m) :
    ∃ w', (Eval.block (Eval.meaning m) last (codeOf as e)).run w =
      (.ok (.int (e.value (runLines env as))), w') := by
  induction as generalizing known env w last with
  | nil =>
    refine ⟨w, ?_⟩
    have hvalue := Arith.means_code hw hs hx m he
    rw [codeOf, Eval.block, run_bind_of_ok hvalue]
    rfl
  | cons a as ih =>
    obtain ⟨ha, has⟩ := List.forall_mem_cons.1 has
    obtain ⟨k, rfl⟩ : ∃ k, m = k + 1 := ⟨m - 1, by omega⟩
    have hvalue := Arith.means_code hw hs.1 hx.1 k (by omega)
    have hassign := Eval.run_assign hvalue none none a.target.text
    have hscope := hw.set a.target.text (a.rhs.value env)
    obtain ⟨w', hrest⟩ := ih (w := { w with scope := w.scope.set _ _ }) (.int (a.rhs.value env))
      hscope hs.2 hx.2 has
    refine ⟨w', ?_⟩
    rw [codeOf, Eval.block]
    exact (run_bind_of_ok hassign _).trans hrest

theorem run_inNewFrame {α : Type} {x : Eval α} {w w' : World} {r : Except Error α}
    (h : x.run { w with scope := w.scope.enter } = (r, w')) :
    (Eval.inNewFrame x).run w = (r, { w' with scope := w'.scope.leave }) := by
  simp only [Eval.inNewFrame, ExceptT.run, ExceptT.mk] at h ⊢
  rw [h]

/-- Running the program binds `main`. -/
theorem run_programWith (k : Host) (body : List Term) {n : Nat} (h : 3 ≤ n) :
    ((Eval.meaning n).eval (programWith body)).run { toHost := k } =
      (.ok (mainWith body), { toHost := k, scope := ({} : Scope Term).set "main" (mainWith body) }) := by
  obtain ⟨m, rfl⟩ := Nat.exists_eq_add_of_le' h
  rfl

/-- Calling `main` gives what the body gives where the number of arguments is bound. -/
theorem run_callMain_of_body {body : List Term} {v : Term} (args : List String) {w : World}
    (hw : w.scope.get? "main" = some (mainWith body))
    (hbody : ∀ inner : World, inner.scope.get? "argc" = some (.int args.length) →
      ∃ w', (Eval.enterBody (Eval.meaning Eval.depthLimit) (mainWith body)).run inner = (.ok v, w')) :
    ∃ w', (Program.callMain args).run w = (.ok (Program.exitValue v), w') := by
  let inner : World := { w with scope := w.scope.enter.update (Program.argumentBindings args) }
  have hscope : inner.scope = (w.scope.enter.set "argc" (.int args.length)).set "argv"
      (.action .array (args.map .str)) := rfl
  have hargc : inner.scope.get? "argc" = some (.int args.length) := by
    rw [hscope, Scope.get?_set, if_neg (by decide), Scope.get?_set, if_pos rfl]
  have hmain : inner.scope.get? "main" = some (mainWith body) := by
    rw [hscope, Scope.get?_set, if_neg (by decide), Scope.get?_set, if_neg (by decide),
      Scope.get?_enter, hw]
  obtain ⟨w', hrun⟩ := hbody inner hargc
  refine ⟨{ w' with scope := w'.scope.leave }, run_inNewFrame ?_⟩
  rw [run_modify_bind, run_get_bind, hmain]
  show (Eval.enterBody (Eval.meaning Eval.depthLimit) (mainWith body) >>= fun v =>
    (pure (Program.exitValue v) : Eval Int)).run inner = _
  rw [run_bind, hrun]
  rfl

namespace Code

variable {c : Code}

theorem run_code (c : Code) (k : Host) {n : Nat} (h : 3 ≤ n) :
    ((Eval.meaning n).eval c.code).run { toHost := k } =
      (.ok c.mainCode, { toHost := k, scope := ({} : Scope Term).set "main" c.mainCode }) :=
  run_programWith k _ h

/-- **The body of `main`** gives back the value of the program.  At the start `argc` is the only name that an
expression may use. -/
theorem run_enterBody (hs : c.Scoped) {argc : Nat} (hx : c.NonnegExponents argc) (hd : c.Shallow)
    {w : World} (hw : w.scope.get? "argc" = some (.int argc)) :
    ∃ w', (Eval.enterBody (Eval.meaning Eval.depthLimit) c.mainCode).run w =
      (.ok (.int (c.value argc)), w') := by
  have hagrees : Agrees ["argc"] (start argc) w.scope := by
    intro x hx
    obtain rfl := List.mem_singleton.1 hx
    exact hw
  -- the block of the body takes one level
  obtain ⟨m, hm⟩ : ∃ m, Eval.depthLimit = m + 1 := ⟨_, rfl⟩
  rw [Shallow, hm] at hd
  have hlines : ∀ a ∈ c.lines, nesting a.rhs.expr + 1 ≤ m :=
    fun a ha => Nat.le_of_succ_le_succ (hd.1 a ha)
  rw [hm]
  exact run_codeOf .nothing hagrees hs hx hlines (Nat.le_of_succ_le_succ hd.2)

/-- Calling `main` gives the value of the program. -/
theorem run_callMain (hs : c.Scoped) (args : List String) (hx : c.NonnegExponents args.length)
    (hd : c.Shallow) {w : World} (hw : w.scope.get? "main" = some c.mainCode) :
    ∃ w', (Program.callMain args).run w = (.ok (c.value args.length), w') :=
  run_callMain_of_body args hw fun _ hargc => run_enterBody hs hx hd hargc

end Code

/-! ## 6. Nothing is too long to be written

Along the way a program is in four forms: tokens, syntax tree, lowered tree, and the function that the frame
holds in the end.  Lines of the journal show each of them, and the only numbers in them are columns of at most
2 and numerals that are short by assumption. -/

theorem writable_of_isLexeme {t : Term} (h : Core.isLexeme t = true) : t.Writable := by
  cases t with
  | leaf k s v => cases v <;> trivial
  | symbol s => trivial
  | _ => cases h

theorem small_lt (n : Int) (h : n.natAbs < 10) : n.natAbs < Text.writingBound :=
  Nat.lt_of_lt_of_le h Text.ten_le_writingBound

theorem writable_lineOf {cs : List Char} {e : Precedence.OpTree} (h : Core.Legible cs e) :
    WritableAll (Core.lineOf e).body := by
  refine Term.writableAll_append.2 ⟨Term.writableAll_iff.2 fun t ht => ?_, trivial⟩
  exact writable_of_isLexeme (h.lexemes t ht)

/-- The columns of the lines are small numbers, and a line consists of tokens. -/
theorem writable_bodyOf (as : List Assignment) (e : Arith) :
    WritableAll (Layout.emitAll 2 ((bodyOf as e).layout 2)) := by
  have hcolumn : (Term.dent 2).Writable := small_lt 2 (by decide)
  induction as with
  | nil =>
    exact ⟨hcolumn, Term.writableAll_append.2 ⟨writable_lineOf (Core.Simple.bare e.formula).legible,
      trivial⟩⟩
  | cons a as ih =>
    exact ⟨hcolumn, Term.writableAll_append.2
      ⟨writable_lineOf (Core.Simple.assign a.target a.rhs.formula).legible, ih⟩⟩

theorem Code.writable_tokens (c : Code) :
    WritableAll (Layout.emitAll 0 (c.program.layout 0)) := by
  refine ⟨small_lt 0 (by decide), Term.writableAll_append.2 ⟨Term.writableAll_append.2 ⟨?_, ?_⟩,
    trivial⟩⟩
  · exact Term.writableAll_iff.2 fun t ht =>
      writable_of_isLexeme (Core.headingTokens_lexemes _ _ _ t ht)
  · exact writable_bodyOf c.lines c.result

theorem writable_term (e : Core.Expr) : e.term.Writable := by
  induction e with
  | literal n => trivial
  | name x => trivial
  | parens inner ih => exact ⟨ih, trivial⟩
  | binary o left right ihl ihr => exact ⟨ihl, ihr, trivial⟩

theorem writable_terms (as : List Assignment) (e : Arith) : WritableAll (bodyOf as e).terms := by
  induction as with
  | nil => exact ⟨writable_term e.expr, trivial⟩
  | cons a as ih => exact ⟨⟨trivial, writable_term a.rhs.expr, trivial⟩, ih⟩

theorem Code.writable_program (c : Code) : (Term.phrase .block c.program.terms).Writable :=
  ⟨⟨trivial, ⟨⟨trivial, trivial, trivial⟩, writable_terms c.lines c.result, trivial⟩, trivial⟩, trivial⟩

theorem writable_bracketedCode (b : Bool) {t : Term} (h : t.Writable) :
    (bracketedCode b t).Writable := by
  cases b with
  | false => exact h
  | true => exact ⟨h, trivial⟩

theorem Arith.writable_code {e : Arith} (h : e.Short) : e.code.Writable := by
  induction e with
  | literal n => exact Text.integer?_lt (integer?_numeral h)
  | var x => trivial
  | binary o left right ihl ihr =>
    exact ⟨writable_bracketedCode _ (ihl h.1), writable_bracketedCode _ (ihr h.2), trivial⟩

theorem writable_codeOf {as : List Assignment} {e : Arith} (has : ∀ a ∈ as, a.rhs.Short)
    (he : e.Short) : WritableAll (codeOf as e) := by
  induction as with
  | nil => exact ⟨e.writable_code he, trivial⟩
  | cons a as ih =>
    obtain ⟨ha, has⟩ := List.forall_mem_cons.1 has
    exact ⟨⟨trivial, a.rhs.writable_code ha, trivial⟩, ih has⟩

namespace Code

variable {c : Code}

theorem writable_mainCode (h : c.Short) : c.mainCode.Writable :=
  ⟨⟨trivial, trivial, trivial⟩, writable_codeOf h.1 h.2, trivial⟩

theorem writable_code (h : c.Short) : c.code.Writable :=
  ⟨⟨trivial, writable_mainCode h, trivial⟩, trivial⟩

end Code

/-! ## 7. The whole way

All stages, for every program, every list of arguments, every filter and every host. -/

/-- **Straight-line programs compute what they are meant to.**  The text is run with any arguments, with any
lines of the journal kept, and in any host. -/
theorem run_source_eq_value (c : Code) (args : List String) (f : Journal.Filter) (k : Host) (ended : Bool)
    (hs : c.Scoped) (hx : c.NonnegExponents args.length) (hl : c.Short) (hd : c.Shallow) :
    ((Program.run f (c.source ended) args false).run.run (.start k)).1 = .ok (c.value args.length) := by
  have hread := Program.leads_read f (c.program.tokens_source ended) c.writable_tokens (.start k)
  rw [c.program.parse_tree] at hread
  let top : World := { toHost := k, scope := ({} : Scope Term).set "main" c.mainCode }
  have heval : c.code.eval.run { toHost := k } = (.ok c.mainCode, top) := c.run_code k (by decide)
  have hshown : ∃ s, top.scope.shown? = some s := by
    refine Scope.shown?_of_writable fun e he => ?_
    obtain rfl := List.mem_singleton.1 he
    exact Code.writable_mainCode hl
  obtain ⟨w', hcall⟩ := Code.run_callMain hs args hx hd (w := top) rfl
  have hrun := Program.leads_runTree f (d := .start k) c.writable_program (Code.lower_program hl)
    (Code.writable_code hl) heval hshown rfl hcall
  obtain ⟨journal, h⟩ := Program.leads_run f hread hrun []
  exact congrArg Prod.fst h

/-- Two assignments, with powers that group to the right and operands in brackets on both sides. -/
def sample : Code :=
  let x : Name := ⟨'x', [], by decide, List.all_eq_true.1 (by decide), by decide, by decide⟩
  let y : Name := ⟨'y', ['1'], by decide, List.all_eq_true.1 (by decide), by decide, by decide⟩
  let digit (d : Fin 10) : Arith := .literal ⟨[d], by simp⟩
  { lines := [
      ⟨x, .binary .sub (.binary .pow (digit 2) (.binary .pow (digit 3) (digit 2)))
        (.binary .mul (.literal ⟨[1, 0], by simp⟩) (.binary .add (.var argcName) (digit 1)))⟩,
      ⟨y, .binary .pow (.binary .sub (.var x) (digit 7)) (digit 2)⟩],
    result := .binary .sub (.var x) (.binary .mul (.binary .sub (.var y) (.var x)) (digit 3)) }

theorem run_sample : sample.Scoped ∧ sample.NonnegExponents 2 ∧ sample.Short ∧ sample.Shallow ∧
    ((Program.run {} "main = (argc, argv) ->\n  x = 2 ^ 3 ^ 2 - 10 * (argc + 1)\n  y1 = (x - 7) ^ 2\n  x - (y1 - x) * 3\n"
      ["sample", "a"] false).run.run {}).1 = .ok (-674947) :=
  ⟨by decide, by decide, by decide, by decide,
    run_source_eq_value sample ["sample", "a"] {} {} true (by decide) (by decide) (by decide) (by decide)⟩

end StraightLine

end Offside
