import Offside.Eval.Operation
import Offside.Regex.Engine
import Offside.Scope
import Offside.Shell
import Offside.Text.Template
/-!
# Evaluation

A term is evaluated in a world: a scope, the text printed so far, and a host.  Evaluation may write to the
innermost frame, print, and fail; what was written and printed before a failure stays.

The host is what a program is given from outside: the commands that it can run and the engine for its
regular expressions.  Nothing is assumed of either here.  A command may change the outside, so after one the
shell is another one; the engine stays the same.

A call opens a frame for the time of the call, inside of the frame of the caller.  So a name that a
function does not bind means what it means to the caller.

Evaluation is defined up to a depth.  `Meaning` holds the two things that nest in each other, the value of a
term and its text (`eval` and `to_string` are their names in the language); one level is defined in terms of
the next (`evalStep`, `textStep`), and there is none below depth 0.
-/

namespace Offside

/-- What a program is given from outside. -/
structure Host where
  shell : Shell := .table
  engine : Engine := .standard

/-- Where evaluation happens: the host, the names, and what has been printed. -/
structure World extends Host where
  scope : Scope Term := {}
  out : String := ""

/-- A computation in a world. -/
abbrev Eval (α : Type) := ExceptT Error (StateM World) α

/-- How terms are evaluated and how they are turned into text. -/
structure Meaning where
  eval : Term → Eval Term
  text : Term → Eval String

namespace Eval

/-! ## 1. The world -/

/-- Prints a line. -/
def printLine (s : String) : Eval Unit :=
  modify fun w => { w with out := w.out ++ s ++ "\n" }

/-- A name, from the term that holds it. -/
def nameOf : Term → Except Error String
  | .text s => .ok s
  | _ => .error .wrongKind

/-- The value of a variable. -/
def lookup (name : Term) : Eval Term := do
  match name with
  | .text s =>
    match (← get).scope.get? s with
    | some v => return v
    | none => throw (.unknownVariable name)
  | .seq _ | .node _ _ _ | .signature _ _ _ => throw .wrongKind
  | _ => throw (.unknownVariable name)

/-- Binds a name in the innermost frame. -/
def assign (name : Term) (v : Term) : Eval Unit := do
  let n ← nameOf name
  modify fun w => { w with scope := w.scope.set n v }

/-- Runs a command, and gives back what it prints. -/
def runCommand (words : List String) : Eval String := do
  let answer := (← get).shell.answer [] words
  modify fun w => { w with shell := w.shell.after words }
  match answer with
  | .ok s => return s
  | .error e => throw (e.error words)

/-- Looks for a match of an expression at the start of a text. -/
def findMatch (pattern subject : String) : Eval (Option Match) := do
  match (← get).engine.compile pattern with
  | .ok m => return m subject.toList
  | .error e => throw e.error

/-- Runs in a new frame, which is dropped at the end, also after a failure. -/
def inNewFrame {α : Type} (x : Eval α) : Eval α := ExceptT.mk fun w =>
  let (r, w') := x.run { w with scope := w.scope.enter }
  (r, { w' with scope := w'.scope.leave })

/-! ## 2. Text -/

variable (r : Meaning)

/-- Fills in the placeholders of a text, in order. -/
def fillAll : List (List Char) → List Char → Eval (List Char)
  | [], cs => return cs
  | n :: ns, cs => do
    let v ← lookup (.text (String.ofList n))
    let s ← r.text v
    fillAll ns (Text.fill n s.toList cs)

/-- The text of a text literal. -/
def interpolate (s : String) : Eval String := do
  let cs ← fillAll r (Text.placeholders s.toList) s.toList
  return String.ofList (Text.unescape cs)

/-- The texts of the elements of an array, each evaluated first. -/
def elementTexts : List Term → Eval (List String)
  | [] => return []
  | t :: ts => do
    let v ← r.eval t
    let s ← r.text v
    return s :: (← elementTexts ts)

/-- A term as it is written. -/
def written (t : Term) : Eval String :=
  match t.plain? with
  | some s => return s
  | none => throw .wrongValue

/-- The text of a value. -/
def textStep (t : Term) : Eval String :=
  match t with
  | .leaf (.datum .int) _ v => written v
  | .leaf (.datum .bool) _ v => written v
  | .leaf (.datum .str) _ v | .leaf (.datum .shellCmd) _ v =>
    match v with
    | .text s => interpolate r s
    | _ => throw .wrongKind
  | .node (.action .array) _ items => do
    return "[" ++ ", ".intercalate (← elementTexts r items) ++ "]"
  | t => throw (t.refuse "to_string")

/-! ## 3. Values -/

/-- What the names of groups are bound to: the text that a group holds, or nothing if it took no part. -/
def groupBindings (f : Match) : List (String × Term) :=
  f.named.map fun b => (b.1, b.2.elim .nothing fun cs => .text (String.ofList cs))

/-- Matches a text against a regular expression.  Named groups are bound to what they hold.  The value
is the matched text, or whether there is a match if that is empty. -/
def regMatch (pattern : Term) (subject : String) : Eval Term :=
  match pattern with
  | .text p => do
    match ← findMatch p subject with
    | none => return .bool false
    | some f =>
      modify fun w => { w with scope := w.scope.update (groupBindings f) }
      if f.length = 0 then return .bool true
      else return .str (String.ofList (subject.toList.take f.length))
  | _ => throw .wrongKind

/-- Runs a command line.  It is cut into words, of which there must be one, and the value is what the
command prints. -/
def command (line : String) : Eval Term :=
  match Text.shellWords line with
  | .ok [] => throw .wrongIndex
  | .ok words => do return .str (← runCommand words)
  | .error _ => throw .wrongValue

/-- The value of a leaf. -/
def datum (d : Datum) (t v : Term) : Eval Term :=
  match d with
  | .var => lookup v
  | .ret => throw .returned
  | .comment => return .nothing
  | .shellCmd => do command (← r.text t)
  | _ => return t

/-- The values of the terms in a row; the last one counts. -/
def block : (last : Term) → List Term → Eval Term
  | last, [] => return last
  | _, t :: ts => do
    let v ← r.eval t
    block v ts

/-- The result of the first arm that is taken. -/
def firstArm : List Term → Eval Term
  | [] => return .nothing
  | t :: ts =>
    match t with
    | .node (.action .ifThen) _ _ => do
      match ← r.eval t with
      | .arm true v => return v
      | .arm false _ => firstArm ts
      | _ => throw .wrongKind
    | _ => throw .notAnArm

/-! ## 4. Calls -/

/-- Runs the body of a function in the present frame. -/
def enterBody (f : Term) : Eval Term :=
  match f with
  | .node (.action .thunk) _ [body] => r.eval body
  | .node (.action .func) _ [_, body] => r.eval body
  | f => throw (f.refuse "Call")

/-- The parameters of a function. -/
def parametersOf (f : Term) : Except Error Term :=
  match f with
  | .signature _ .none _ => .ok .nothing
  | .signature _ (.one k) _ => .ok (.kind k)
  | .signature _ (.many ks) _ => .ok (.seq (ks.map .kind))
  | f =>
    match f.child? "args" with
    | some t => .ok t
    | none => .error (.ofMissing f "args")

/-- The arguments of a call: a single value stands for a list of one. -/
def argumentList : Term → Except Error (List Term)
  | .leaf (.datum d) s v =>
    if d.isValue || d = .var then .ok [.leaf (.datum d) s v] else .error .wrongKind
  | t => t.members

/-- A number that was read and not lowered becomes one that can be run. -/
def lowered : Term → Except Error Term
  | .leaf (.word .int) _ v => (LeafKind.datum .int).build [v]
  | t => .ok t

/-- Evaluates arguments once more and pairs them with the names of the parameters. -/
def bindings : List Term → List Term → Eval (List (String × Term))
  | k :: ks, v :: vs => do
    let v ← r.eval v
    let v ← lowered v
    let n ← nameOf (← k.value)
    return (n, v) :: (← bindings ks vs)
  | _, _ => return []

/-- Calls a function with arguments, both evaluated in the frame of the caller. -/
def call (func args : Term) : Eval Term := do
  let f ← r.eval func
  let a ← r.eval args
  let ks ← (← parametersOf f).members
  let vs ← argumentList a
  if ks.length ≠ vs.length then throw .argumentCount
  let bs ← bindings r ks vs
  inNewFrame do
    modify fun w => { w with scope := w.scope.update bs }
    enterBody r f

/-! ## 5. Nodes -/

/-- The value of a node.  A node always has as many children as its kind has fields. -/
def action (a : Action) (t : Term) (kids : List Term) : Eval Term :=
  match a, kids with
  | .array, _ | .thunk, _ | .func, _ => return t
  | .block, kids => block r .nothing kids
  | .parens, [x] => r.eval x
  | .print, [x] => do
    let v ← r.eval x
    printLine (← r.text v)
    return v
  | .check, [x] => do
    let v ← r.eval x
    if ← v.truth then return v else throw (.assertionFailed x)
  | .regMatch, [x, y] => do
    let left ← r.eval x
    let right ← r.eval y
    match left with
    | .leaf (.datum .regEx) _ p => regMatch p (← r.text right)
    | .kind k => if k.can a.name then throw .wrongKind else throw (.unsupported left a.name)
    | _ => throw (.unsupported left a.name)
  | .assign, [x, y] => do
    let v ← r.eval y
    match x with
    | .leaf (.datum .var) _ name => assign name v
    | _ => throw (x.refuse "Assign")
    return v
  | .ifThen, [c, x] => do
    if ← (← r.eval c).truth then return .arm true (← r.eval x) else return .arm false (.number 0)
  | .ifElse, [c, x, y] => do
    if ← (← r.eval c).truth then r.eval x else r.eval y
  | .select, [x] => do firstArm r (← x.members)
  | .callBare, [x] => inNewFrame do enterBody r (← r.eval x)
  | .call, [f, x] => call r f x
  | .composeR, [x, y] => do
    let right ← r.eval y
    let left ← r.eval x
    r.eval (.action .call [left, right])
  | _, [x, y] => do
    let left ← r.eval x
    let right ← r.eval y
    binary a left right
  | _, _ => throw .wrongIndex

/-- The value of a term. -/
def evalStep (t : Term) : Eval Term :=
  match t with
  | .leaf (.datum d) _ v => datum r d t v
  | .node (.action a) _ kids => action r a t kids
  | t => throw (t.refuse "eval")

/-- Evaluation up to a depth. -/
def meaning : Nat → Meaning
  | 0 => ⟨fun _ => throw .recursion, fun _ => throw .recursion⟩
  | n + 1 =>
    let r := meaning n
    ⟨evalStep r, textStep r⟩

/-- The depth to which terms are evaluated.  It stands in for the recursion limit of the machine that runs a
program, which counts nested calls and not levels of a term, so the number itself is a choice: a program
that recurses without end fails with the error `recursion` under any bound, and one that comes nowhere near
the limit gives the same answer under any other.  Between the two nothing is said about the exact depth at
which a run fails.  Only evaluation is limited so: a term is written, and compared with another one, however
deep it is. -/
def depthLimit : Nat := 2000

end Eval

namespace Term

/-- The value of a term. -/
def eval (t : Term) : Eval Term := (Eval.meaning Eval.depthLimit).eval t

/-- The text of a value. -/
def toText (t : Term) : Eval String := (Eval.meaning Eval.depthLimit).text t

end Term

end Offside
