import Offside.Operator.Reader
import Offside.Program
import Offside.Tree.Outline
/-!
# The workbench

A place to take terms apart: they are made from specifications, given names, shown, evaluated, typed,
changed and transformed, one step at a time.  The state is a `Desk`: the names, a scope, what has been
noted about terms.  A step that fails leaves what it did before.
-/

namespace Offside

namespace Workbench

/-! ## 1. Making terms -/

/-- How a term is made. -/
inductive Spec where
  /-- a new leaf or node -/
  | make (m : Maker) (args : List Spec)
  /-- the term under a name -/
  | ref (name : String)
  | symbol (sign : String)
  | signature (args ret : Spec)
  | list (items : List Spec)
  | plain (t : Term)

mutual

/-- Makes the term of a specification.  Everything new gets a site of its own. -/
def build : Spec → Typing Term
  | .make m args => do
    let ts ← buildAll args
    let t ← m.make ts
    Typing.withSites t.mark
  | .ref name => do
    match (← get).names.get? name with
    | some t => return t
    | none => throw (.noKey name)
  | .symbol sign => OperatorTable.standard.token sign
  | .signature args ret => do
    let a ← build args
    let r ← build ret
    Typing.signature a r
  | .list items => do return .seq (← buildAll items)
  | .plain t => return t

def buildAll : List Spec → Typing (List Term)
  | [] => return []
  | s :: ss => do
    let t ← build s
    return t :: (← buildAll ss)

end

/-! ## 2. Traits of terms -/

/-- The names of the children of a node, sorted. -/
def traits (t : Term) : List String :=
  match t with
  | .node k _ _ => k.fields.names.mergeSort (· ≤ ·)
  | _ => []

/-- A trait of a term: something noted, a child, what a leaf holds, what a type is made of. -/
def trait (t : Term) (name : String) : Typing Term := do
  match ← Typing.noted? t name with
  | some v => return v
  | none =>
    match t, name with
    | t, "type" => Typing.typeOf t
    | .signature _ _ ret, "ret" => return .kind ret
    | .signature _ _ _, "args" => Eval.parametersOf t
    | .leaf _ _ _, "lbp" => return .number 0
    | .symbol s, "sym" => return .text s
    | .symbol _, "lbp" => do return .number (← OperatorTable.standard.power t)
    | t, "value" => t.value
    | t, name =>
      match t.child? name with
      | some v => return v
      | none => throw (.ofMissing t name)

/-- A kind of node has room for this trait beside its children. -/
def hasRoom (d : Desk) (k : NodeKind) (name : String) : Bool :=
  match k with
  | .action a => a.operations.contains name || name = "type" && d.keeps a
  | _ => false

/-- Changes a trait of a term, everywhere the term is held, and gives back the changed term. -/
def setTrait (t : Term) (name : String) (v : Term) : Typing Term := do
  match t with
  | .leaf k s _ =>
    if name = "value" then
      Typing.revise s (.leaf k s v)
      return .leaf k s v
    else
      Typing.note t name v
      return t
  | .node k s kids =>
    if hasRoom (← get) k name then
      Typing.note t name v
      return t
    else if k.fields = .many then throw .wrongKind
    else
      match k.fields.names.findIdx? (· == name) with
      | some i =>
        let t' := .node k s (kids.set i v)
        Typing.revise s t'
        return t'
      | none => throw (.ofMissing t name)
  | .signature s args ret =>
    match name, v with
    | "ret", .kind k =>
      Typing.revise s (.signature s args k)
      return .signature s args k
    | _, _ =>
      Typing.note t name v
      return .signature s args ret
  | t => throw (.ofMissing t name)

/-! ## 3. Operations by name -/

/-- The number that a leaf holds. -/
def held (t : Term) : Except Error Int := do
  match (← t.value).numeric? with
  | some n => return n
  | none => throw .wrongKind

/-- The action that an operation on two integers belongs to. -/
def intAction? : String → Option Action
  | "Add" => some .add
  | "Sub" => some .sub
  | "Mul" => some .mul
  | "Pow" => some .pow
  | "Less" => some .less
  | "More" => some .more
  | _ => none

/-- Applies an operation of a term by its name.  `inFrame` says that the scope is passed along as the
last argument. -/
def invoke (t : Term) (operation : String) (args : List Term) (inFrame : Bool) : Typing Term := do
  if !t.kindOf.can operation && !(t.isNode && operation = "append") then
    throw (t.refuse operation)
  match operation, args, inFrame with
  | "eval", [], true => Typing.evaluate t.eval
  | "infer_type", [], true => Typing.infer t
  | "to_string", [], true => do return .text (← Typing.evaluate t.toText)
  | "Call", [], true => Typing.evaluate (Eval.enterBody (Eval.meaning Eval.depthLimit) t)
  | "Bool", [], true => return .bool true
  | "Assign", [v], true => do
    Typing.evaluate (Eval.assign (← t.value) v)
    return v
  | "RegMatch", [s], true => do
    let subject ← Typing.evaluate s.toText
    Typing.evaluate (Eval.regMatch (← t.value) subject)
  | "to_int", [], false => t.value
  | "Eq", [v], false => do return .bool ((← t.value).same (← v.value))
  | "Subscript", [i], false => do element (← t.members) i
  | "append", [v], false =>
    match t with
    | .node k s kids => do
      Typing.revise s (.node k s (kids ++ [v]))
      return .nothing
    | t => throw (t.refuse operation)
  | op, [v], false =>
    match intAction? op with
    | some a => do
      let x ← held t
      let y ← held v
      match intOperation a x y with
      | some r => r
      | none => throw .wrongKind
    | none => throw .wrongKind
  | _, _, _ => throw .wrongKind

/-- Two terms are equal.  A type can only be compared with something that has arguments. -/
def equal (a b : Term) : Except Error Bool := Typing.sameTypes a b

/-! ## 4. Steps -/

inductive Step where
  | enter
  | leave
  | frame
  | name (name : String) (s : Spec)
  | bind (name : String) (s : Spec)
  | display (s : Spec)
  | write (s : Spec)
  | length (s : Spec)
  | truth (s : Spec)
  | traits (s : Spec)
  | start (s : Spec)
  | eval (s : Spec)
  | infer (s : Spec)
  | inferAssigned (s value : Spec)
  | text (s : Spec)
  | get (s : Spec) (trait : String)
  | set (s : Spec) (trait : String) (value : Spec)
  | invoke (s : Spec) (operation : String) (args : List Spec) (inFrame : Bool)
  | equal (s t : Spec)
  | isKind (s : Spec)
  | returnInt (s : Spec)
  | lower (s : Spec)
  | transform (s : Spec) (p : Tree.Pass)
  | apply (s : Spec) (p : Tree.Pass)
  | outline (s : Spec) (level : Int)
  | run (s : Spec) (args : List String) (checkTypes : Bool)

/-- What a step gives back. -/
inductive Answer where
  | nothing
  | term (t : Term)
  | text (s : String)
  | texts (ss : List String)
  | count (n : Nat)
  | flag (b : Bool)

/-- A term with texts in quotes. -/
def shown (t : Term) : Except Error String :=
  match t.shown? with
  | some s => .ok s
  | none => .error .wrongValue

/-- Runs a tree in a scope of its own. -/
def runTree (t : Term) (args : List String) (checkTypes : Bool) : Typing Int := ExceptT.mk fun d =>
  let quiet : Journal.Filter := { otherwise := false }
  let (r, p) := (Program.runTree quiet t args checkTypes).run { desk := { d with scope := {} } }
  (r, { p.desk with scope := d.scope })

/-- Takes one step. -/
def step : Step → Typing Answer
  | .enter => do
    modify fun d => { d with scope := d.scope.enter }
    return .nothing
  | .leave => do
    modify fun d => { d with scope := d.scope.leave }
    return .nothing
  | .frame => do
    match (← get).scope.shown? with
    | some s => return .text s
    | none => throw .wrongValue
  | .name n s => do
    let t ← build s
    modify fun d => { d with names := d.names.set n t }
    return .term t
  | .bind n s => do
    let t ← build s
    modify fun d => { d with scope := d.scope.set n t }
    return .nothing
  | .display s => do return .text (← shown (← build s))
  | .write s => do return .text (← Typing.evaluate (Eval.written (← build s)))
  | .length s => do return .count (← (← build s).members).length
  | .truth s => do return .flag (← (← build s).truth)
  | .traits s => do return .texts (traits (← build s))
  | .start s => do
    let t ← build s
    let (r, _) ← OperatorTable.standard.start (fun _ _ => .error .endOfTokens) t []
    return .term r
  | .eval s => do
    let t ← build s
    return .term (← Typing.evaluate t.eval)
  | .infer s => do return .term (← Typing.infer (← build s))
  | .inferAssigned s v => do
    let t ← build s
    let v ← build v
    match t with
    | .leaf (.datum .var) _ name => return .term (← Typing.inferVar t name v)
    | t => if t.kindOf.can "infer_type" then throw .wrongKind else throw (t.refuse "infer_type")
  | .text s => do
    let t ← build s
    return .text (← Typing.evaluate t.toText)
  | .get s n => do return .term (← trait (← build s) n)
  | .set s n v => do
    let t ← build s
    let v ← build v
    return .text (← shown (← setTrait t n v))
  | .invoke s op args inFrame => do
    let t ← build s
    let ts ← buildAll args
    return .term (← invoke t op ts inFrame)
  | .equal s t => do
    let a ← build s
    let b ← build t
    return .flag (← equal a b)
  | .isKind s => do
    match ← build s with
    | .kind _ => return .flag true
    | _ => return .flag false
  | .returnInt s => do
    let t ← Typing.returnInt (← build s)
    return .texts [← shown t, ← shown (← Typing.typeOf t)]
  | .lower s => do return .term (← Tree.lower (← build s))
  | .transform s p => do return .term (← p.run (← build s))
  | .apply s p => do return .term (← p.apply (← build s))
  | .outline s level => do
    let o := Tree.outline level (← build s)
    modify fun d => { d with out := d.out ++ o.text }
    match o.error with
    | some e => throw e
    | none => return .nothing
  | .run s args checkTypes => do
    let n ← runTree (← build s) args checkTypes
    return .text (← Typing.evaluate (Eval.written (.number n)))

/-- Takes one step, and also gives back what was printed during it. -/
def takeStep (d : Desk) (s : Step) : Except Error Answer × String × Desk :=
  let (r, d') := (step s).run { d with out := "" }
  (r, d'.out, d')

end Workbench

end Offside
