import Offside.Journal
import Offside.Layout
import Offside.Token.Lexer
import Offside.Tree.Lowering
import Offside.Tree.Passes
import Offside.Typing.Basic
/-!
# Reading and running a program

A program is a text.  It is cut into tokens, laid out in blocks, made into a syntax tree, lowered and
evaluated; then its function `main` is called, with the number of arguments and the arguments bound to
`argc` and `argv`.  The program gives back the integer that `main` gives back, or 0.  If types are checked,
that of `main` is found before the call, and `main` is made to give back an integer (`checkMain`; for the
second half of it the language has the name `fix_main_signature`).

Each step writes to the journal.  A line that cannot be written, because it shows a number that is too
long, ends the program, but only if the line is to be kept.
-/

namespace Offside

namespace Program

/-! ## 1. Steps without a journal -/

/-- The syntax tree of a text. -/
def parse (source : String) : Except Error Term := do
  Tree.parse (Layout.tree (← Lexer.tokens source))

/-- The arguments of a program, as they are bound in the frame of `main`. -/
def argumentBindings (args : List String) : List (String × Term) :=
  [("argc", .int args.length), ("argv", .action .array (args.map .str))]

/-- The integer that a program gives back when `main` gives back this value. -/
def exitValue : Term → Int
  | .leaf (.datum .int) _ (.number n) => n
  | _ => 0

/-- Calls `main` in a new frame. -/
def callMain (args : List String) : Eval Int :=
  Eval.inNewFrame do
    modify fun w => { w with scope := w.scope.update (argumentBindings args) }
    let main ← match (← get).scope.get? "main" with
      | some m => pure m
      | none => throw (.noKey "main")
    return exitValue (← Eval.enterBody (Eval.meaning Eval.depthLimit) main)

/-- Finds the types in `main`, and makes it give back an integer.  The arguments are bound for the
time of it. -/
def checkMain (args : List String) : Typing Unit := do
  modify fun d =>
    let (scope, next) := (numbered d.scope).run d.next
    { d with scope := scope.enter.update (argumentBindings args), next := next }
  let main ← match (← get).scope.get? "main" with
    | some m => pure m
    | none => throw (.noKey "main")
  let _ ← Typing.infer main
  if (← Typing.retOf (← Typing.typeOf main)) ≠ .datum .int then
    let _ ← Typing.returnInt main
  modify fun d => { d with scope := d.scope.leave }
where
  /-- Gives sites to all values of the outermost frame. -/
  numbered (s : Scope Term) : StateM Nat (Scope Term) := do
    let entries ← s.top.entries.mapM fun (n, v) => do return (n, ← v.enumerate)
    return { s with top := ⟨entries⟩ }

/-! ## 2. Steps with a journal -/

/-- How far a program has come. -/
structure Progress where
  desk : Desk := {}
  journal : List Journal.Entry := []

/-- Where a program begins, with what it is given from outside. -/
def Progress.start (k : Host) : Progress := { desk := .start k }

/-- A step of a program. -/
abbrev Step (α : Type) := ExceptT Error (StateM Progress) α

variable (f : Journal.Filter)

/-- Writes a line to the journal if it is to be kept. -/
def note (path : List String) (text? : Unit → Option String) : Step Unit := do
  if f.admits path then
    match text? () with
    | some s => modify fun p => { p with journal := p.journal ++ [⟨path, s⟩] }
    | none => throw .wrongValue

/-- A line that shows a term. -/
def noteTerm (path : List String) (lead : String) (t : Term) : Step Unit :=
  note f path fun _ => t.plain?.map (lead ++ ·)

/-- Works at the desk. -/
def atDesk {α : Type} (x : Typing α) : Step α := ExceptT.mk fun p =>
  let (r, d) := x.run p.desk
  (r, { p with desk := d })

def readTokens (source : String) : Step (List Term) := do
  let ts ← Lexer.tokens source
  noteTerm f ["tokenizer"] "after tokenizer:\n " (.seq ts)
  return ts

def layOut (ts : List Term) : Step Term := do
  let implicit := Layout.addBodyDents 0 ts
  noteTerm f ["indent", "imp_dents"] "after adding implicit dents:\n " (.seq implicit)
  let merged := Layout.collapseDents implicit
  noteTerm f ["indent", "merge_dents"] "merging dents:\n " (.seq merged)
  for e in Layout.events 0 merged do
    note f ["indent", "indent"] fun _ => e.message?
  let (tree, _) := Layout.blocks 0 merged
  noteTerm f ["indent", "blocks"] "after block parser:\n " tree
  return tree

def makeTree (t : Term) : Step Term := do
  let t ← Tree.Pass.nameParameters.run t
  Tree.passes.foldlM (fun t p => do
    note f ["ast", "rewrite"] fun _ => some ("aplying " ++ p.name)
    p.run t) t

/-- Reads a program. -/
def read (source : String) : Step Term := do
  makeTree f (← layOut f (← readTokens f source))

def lowerTree (t : Term) : Step Term := do
  for n in Tree.lowerings t do
    note f ["interpreter", "replace"] fun _ => Tree.loweringMessage? n
  let t ← Tree.lower t
  noteTerm f ["interpreter", "final_ast"] "the final AST is:\n " t
  return t

/-- Runs a syntax tree. -/
def runTree (t : Term) (args : List String) (checkTypes : Bool) : Step Int := do
  let t ← lowerTree f t
  let t ← if checkTypes then atDesk (Typing.withSites t.enumerate) else pure t
  let _ ← atDesk (Typing.evaluate t.eval)
  let top := (← get).desk.scope
  note f ["interpreter", "topframe"] fun _ => top.shown?.map ("the top frame is\n " ++ ·)
  if !top.top.names.contains "main" then
    atDesk (Typing.evaluate (Eval.printLine "no main function defined, exiting"))
    return 0
  if checkTypes then atDesk (checkMain args)
  atDesk (Typing.evaluate (callMain args))

/-- Reads and runs a program. -/
def run (source : String) (args : List String) (checkTypes : Bool) : Step Int := do
  runTree f (← read f source) args checkTypes

end Program

end Offside
