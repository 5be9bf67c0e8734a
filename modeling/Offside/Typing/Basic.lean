import Offside.Eval.Basic
import Offside.Term.Site
/-!
# Types of terms

The type of a term says what it takes and what it gives back.  Types are found from the leaves up (`infer`,
which the language calls `infer_type`) and noted against the sites of the terms they belong to.  A variable
has the type of what is bound to its name: an assignment binds the name to the term on its right, which is not
evaluated.

A type may be held in several places, and a change to it is seen in all of them (`revise`).
-/

namespace Offside

/-- The kinds of nodes that a type can be noted against. -/
def Action.keepsType : Action → Bool
  | .thunk | .callBare | .ifThen | .select | .call | .composeR => false
  | _ => true

/-- Where types are found: a world, names for terms, notes on the traits of terms, the next fresh site,
and which nodes a type can be noted against. -/
structure Desk extends World where
  names : Frame Term := {}
  notes : List ((Nat × String) × Term) := []
  next : Nat := 0
  keeps : Action → Bool := Action.keepsType

/-- A desk on which nothing has been done, in a host. -/
def Desk.start (k : Host) : Desk := { toHost := k }

/-- A computation at a desk. -/
abbrev Typing (α : Type) := ExceptT Error (StateM Desk) α

namespace Typing

/-! ## 1. Notes -/

/-- Evaluates in the world of the desk. -/
def evaluate {α : Type} (x : Eval α) : Typing α := ExceptT.mk fun d =>
  let (r, w) := x.run d.toWorld
  (r, { d with toWorld := w })

/-- Computes with fresh sites. -/
def withSites {α : Type} (x : StateM Nat α) : Typing α := ExceptT.mk fun d =>
  let (r, n) := x.run d.next
  (.ok r, { d with next := n })

/-- Changes a term everywhere it is held. -/
def revise (site : Site) (new : Term) : Typing Unit :=
  match site with
  | none => return ()
  | some n => modify fun d => { d with
      scope := d.scope.map (Term.graft n new),
      names := d.names.map (Term.graft n new),
      notes := d.notes.map fun (k, v) => (k, Term.graft n new v) }

/-- What has been noted about a trait of a term. -/
def noted? (t : Term) (trait : String) : Typing (Option Term) := do
  match t.site with
  | some n => return (← get).notes.lookup (n, trait)
  | none => return none

/-- Notes a trait of a term. -/
def note (t : Term) (trait : String) (v : Term) : Typing Unit := do
  match t.site with
  | some n => modify fun d => { d with
      notes := ((n, trait), v) :: d.notes.filter (·.1 != (n, trait)) }
  | none => return ()

/-- The type of a term, as far as it is known. -/
def typeOf (t : Term) : Typing Term := do
  match ← noted? t "type" with
  | some v => return v
  | none =>
    match t.kindOf with
    | .leaf (.datum .ret) => throw (.ofMissing t "type")
    | .leaf (.datum _) => return .nothing
    | .node (.action a) =>
      if (← get).keeps a then return .nothing else throw (.ofMissing t "type")
    | _ => throw (.ofMissing t "type")

/-- Notes the type of a term. -/
def setType (t : Term) (v : Term) : Typing Unit := do
  match t with
  | .node (.action a) _ _ =>
    if (← get).keeps a then note t "type" v else throw (.ofMissing t "type")
  | _ => note t "type" v

/-! ## 2. Signatures -/

/-- What a type gives back. -/
def retOf : Term → Except Error Kind
  | .signature _ _ ret => .ok ret
  | t => .error (.ofMissing t "ret")

/-- The kind that a kind or a type stands for. -/
def kindFor? : Term → Option Kind
  | .kind k => some k
  | .signature _ _ ret => some ret
  | _ => none

/-- The arguments of a signature: nothing, a type, or a list of kinds and types. -/
def sigArgs (args : Term) : Except Error SigArgs :=
  match args with
  | .nothing => .ok .none
  | .signature _ _ ret => .ok (.one ret)
  | .seq items | .node _ _ items =>
    match items.mapM kindFor? with
    | some ks => .ok (.many ks)
    | none => .error (.argTypes args)
  | .arm b r =>
    match [Term.flag b, r].mapM kindFor? with
    | some ks => .ok (.many ks)
    | none => .error (.argTypes args)
  | _ => .error (.unknownType args)

/-- A signature of its own. -/
def signature (args ret : Term) : Typing Term := do
  let as ← sigArgs args
  match kindFor? ret with
  | some k => withSites (Term.mark (.signature none as k))
  | none => throw (.retType ret)

/-! ## 3. Inference -/

/-- Finds the type of a variable, unless it is known.  If there is a term to assign, the name is bound
to it first. -/
def inferVar (t name lvalue : Term) : Typing Term := do
  let known ← typeOf t
  if ← known.truth then return known
  let ref ←
    if ← lvalue.truth then
      evaluate (Eval.assign name lvalue)
      pure lvalue
    else
      let n ← Eval.nameOf name
      match (← get).scope.get? n with
      | some v => pure v
      | none => throw (.noKey n)
  let ty ← typeOf ref
  setType t ty
  return ty

/-- The type of an operator, from those of its operands, which give back the same. -/
def inferBinary (a : Action) (t left right : Term) : Typing Term := do
  let l ← retOf left
  let r ← retOf right
  if l ≠ r then throw (.operandTypes left right)
  let ty ← match a with
    | .eq | .less | .more | .boolOp => signature (.seq [left, right]) (.kind (.datum .bool))
    | _ => signature (.seq [left, right]) left
  setType t ty
  return ty

/-- The types of two branches are the same. -/
def sameTypes (a b : Term) : Except Error Bool :=
  match a, b with
  | .nothing, .nothing => .ok true
  | .signature _ x r, .signature _ y q => .ok (x == y && r == q)
  | .signature _ _ _, t | t, .signature _ _ _ => .error (.ofMissing t "args")
  | a, b => .ok (a.same b)

/-- A condition gives back a truth value. -/
def wantBool (ty : Term) (e : Error) : Except Error Unit := do
  if (← retOf ty) ≠ .datum .bool then throw e

/-- Prints a term as it is written. -/
def printTerm (t : Term) : Typing Unit := evaluate do Eval.printLine (← Eval.written t)

mutual

/-- Finds the type of a term. -/
def infer (t : Term) : Typing Term :=
  match t with
  | .leaf (.datum .var) s name => inferVar (.leaf (.datum .var) s name) name .nothing
  | .leaf (.datum .ret) s v => throw (.ofMissing (.leaf (.datum .ret) s v) "infer_type")
  | .leaf (.datum d) s v => do
    let ty ← signature .nothing (.kind (.datum d))
    setType (.leaf (.datum d) s v) ty
    return ty
  | .node (.action .array) s items => do
    evaluate (Eval.printLine "TODO: array does not support type inference yet")
    let ty ← signature .nothing (.kind (.action .array))
    setType (.node (.action .array) s items) ty
    return ty
  | .node (.action .block) s kids => do
    inferRow (.node (.action .block) s kids) kids
    typeOf (.node (.action .block) s kids)
  | .node (.action .thunk) s [body] => do
    let ty ← infer body
    let ty ← signature .nothing ty
    setType (.node (.action .thunk) s [body]) ty
    return ty
  | .node (.action .func) s [args, body] => do
    let argTypes ← inferMembers args
    let ret ← infer body
    let ty ← signature (.seq argTypes) ret
    setType (.node (.action .func) s [args, body]) ty
    return ty
  | .node (.action .assign) s [left, right] => do
    match left with
    | .leaf (.datum .var) ls name =>
      let _ ← infer right
      let ty ← inferVar (.leaf (.datum .var) ls name) name right
      setType (.node (.action .assign) s [left, right]) ty
      return ty
    | _ => throw .assignTarget
  | .node (.action .check) s [arg] => do
    let ty ← infer arg
    setType (.node (.action .check) s [arg]) ty
    wantBool ty .checkType
    return ty
  | .node (.action .ifThen) s [iff, thn] => do
    let c ← infer iff
    printTerm c
    wantBool c .branchTypes
    let ty ← infer thn
    setType (.node (.action .ifThen) s [iff, thn]) ty
    return ty
  | .node (.action .ifElse) s [iff, thn, otherwise] => do
    wantBool (← infer iff) .branchTypes
    let a ← infer thn
    let b ← infer otherwise
    if !(← sameTypes a b) then throw .branchTypes
    let ty ← signature (.kind (.datum .bool)) b
    setType (.node (.action .ifElse) s [iff, thn, otherwise]) ty
    return ty
  | .node (.action .select) s [arg] => do
    match (← inferMembers arg).getLast? with
    | some ty =>
      setType (.node (.action .select) s [arg]) ty
      return .nothing
    | none => throw .unassigned
  | .node (.action .call) s kids => throw (.ofMissing (.node (.action .call) s kids) "infer_type")
  | .node (.action .composeR) s kids =>
    throw (.ofMissing (.node (.action .composeR) s kids) "infer_type")
  | .node (.action a) s [arg] => do
    let ty ← infer arg
    setType (.node (.action a) s [arg]) ty
    return ty
  | .node (.action a) s [left, right] => do
    let l ← infer left
    let r ← infer right
    inferBinary a (.node (.action a) s [left, right]) l r
  | .node (.action _) _ _ => throw .wrongIndex
  | t => throw (t.refuse "infer_type")

/-- Finds the types of the members of a term. -/
def inferMembers (t : Term) : Typing (List Term) :=
  match t with
  | .node _ _ kids => inferAll kids
  | .seq items => inferAll items
  | .text s => if s.isEmpty then return [] else throw (.lacks .text "infer_type")
  | .arm _ _ => throw (.lacks .flag "infer_type")
  | _ => throw .wrongKind

/-- Finds the types of terms in order. -/
def inferAll (ts : List Term) : Typing (List Term) :=
  match ts with
  | [] => return []
  | t :: ts => do
    let ty ← infer t
    return ty :: (← inferAll ts)

/-- Finds the types of the statements of a block; each one is noted as that of the block. -/
def inferRow (block : Term) (ts : List Term) : Typing Unit :=
  match ts with
  | [] => return ()
  | t :: ts => do
    let ty ← infer t
    setType block ty
    inferRow block ts

end

/-! ## 4. The main function -/

/-- Makes a function give back an integer: its type is changed, and its body gets a zero as its last
statement.  Gives back the changed function. -/
def returnInt (main : Term) : Typing Term := do
  let ty ← typeOf main
  if (← retOf ty) = .datum .int then return main
  if let .signature s args _ := ty then revise s (.signature s args (.datum .int))
  match main.child? "body" with
  | none => throw (.ofMissing main "body")
  | some body =>
    let zero ← withSites (Term.mark (.int 0))
    let body' ← match body with
      | .node (.action .block) s kids => do
        let longer := Term.node (.action .block) s (kids ++ [zero])
        revise s longer
        pure longer
      | b => withSites (Term.mark (.action .block [b, zero]))
    match main with
    | .node k s kids =>
      let i := (k.fields.names.findIdx? (· == "body")).getD 0
      let main' := .node k s (kids.set i body')
      revise s main'
      return main'
    | t => return t

end Typing

end Offside
