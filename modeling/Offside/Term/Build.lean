import Offside.Error
/-!
# Making nodes and leaves from arguments

A node takes as many arguments as its kind has fields, or any number if it has none.  Four kinds have
rules of their own:

* a comma of a comma and a term is one longer comma;
* an array is made from one argument and has the members of it;
* a regular-expression match with a text on the left has its sides exchanged;
* an integer leaf holds a number, which is read if it is given as a text.
-/

namespace Offside

/-- The number that a term denotes. -/
def Term.toNumber : Term → Except Error Int
  | number n => .ok n
  | flag b => .ok (if b then 1 else 0)
  | text s =>
    match Text.integer? s with
    | some n => .ok n
    | none => .error .wrongValue
  | _ => .error .wrongKind

/-- What a leaf holds, or the column of a dent. -/
def Term.value : Term → Except Error Term
  | leaf _ _ v => .ok v
  | dent n => .ok (number n)
  | t => .error (.ofMissing t "value")

/-- A text literal, read or runnable.  A shell command that can be run counts as one. -/
def Term.isTextLiteral : Term → Bool
  | leaf (.datum .str) _ _ | leaf (.datum .shellCmd) _ _ | leaf (.word .str) _ _ => true
  | _ => false

/-- The members of a term, or an error if it has none. -/
def Term.members (t : Term) : Except Error (List Term) :=
  match t.members? with
  | some ms => .ok ms
  | none => .error .wrongKind

/-- A leaf of a kind.  Without an argument it holds nothing. -/
def LeafKind.build (k : LeafKind) (args : List Term) : Except Error Term :=
  match k, args with
  | .datum .int, [v] => do return .leaf k none (.number (← v.toNumber))
  | .datum .int, _ => .error .wrongKind
  | _, [] => .ok (.leaf k none .nothing)
  | _, [v] => .ok (.leaf k none v)
  | _, _ => .error .wrongKind

/-- A comma flattens on its left. -/
def commaKids (left right : Term) : List Term :=
  match left with
  | .node (.phrase .comma) _ kids => kids ++ [right]
  | .node (.declared _ .comma _) _ kids => kids ++ [right]
  | _ => [left, right]

/-- A node with as many children as there are fields. -/
def NodeKind.plainBuild (k : NodeKind) (args : List Term) : Except Error Term :=
  match k.fields with
  | .named _ rest => if args.length = rest.length + 1 then .ok (.node k none args) else .error .fieldCount
  | _ => .ok (.node k none args)

/-- A node of a kind. -/
def NodeKind.build (k : NodeKind) (args : List Term) : Except Error Term :=
  match k with
  | .phrase .comma | .declared _ .comma _ =>
    match args with
    | [left, right] => k.plainBuild (commaKids left right)
    | _ => .error .wrongKind
  | .action .array =>
    match args with
    | [t] => do return .node k none (← t.members)
    | _ => .error .wrongKind
  | .action .regMatch =>
    match args with
    | [left, right] =>
      .ok (.node k none (if left.isTextLiteral then [right, left] else [left, right]))
    | _ => .error .wrongKind
  | _ => k.plainBuild args

end Offside
