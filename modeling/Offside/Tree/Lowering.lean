import Offside.Tree.Transform
import Offside.Term.Build
/-!
# From a syntax tree to one that can be run

Every leaf and node that a text was read into and that has a meaning becomes the one that can be run.  The
language calls this step `replace_nodes`; it goes by a table from the one family of kinds to the other.
What has no meaning of its own (a list of names, a comma, a sign before a number) stays as it is.
-/

namespace Offside

namespace Tree

/-- The datum that a leaf becomes. -/
def datumOf : Word → Option Datum
  | .int => some .int
  | .str => some .str
  | .shellCmd => some .shellCmd
  | .regEx => some .regEx
  | .id => some .var
  | .ret => some .ret
  | .alwaysTrue => some .alwaysTrue
  | .comment => some .comment
  | .leaf | .var => none

/-- The action that a node becomes. -/
def actionOf : Phrase → Option Action
  | .brackets => some .array
  | .thunk => some .thunk
  | .lambda => some .func
  | .block => some .block
  | .print => some .print
  | .check => some .check
  | .regMatch => some .regMatch
  | .assign => some .assign
  | .add => some .add
  | .sub => some .sub
  | .mul => some .mul
  | .eq => some .eq
  | .less => some .less
  | .more => some .more
  | .pow => some .pow
  | .subscript => some .subscript
  | .parens => some .parens
  | .ifThen => some .ifThen
  | .ifElse => some .ifElse
  | .select => some .select
  | .callBare => some .callBare
  | .call => some .call
  | .composeR => some .composeR
  | .node | .list | .unary | .binary | .expr | .minus | .plus | .composeL | .comma => none

/-- The action that a node of any kind becomes.  Conditionals that can be run are made anew. -/
def actionOfNode : NodeKind → Option Action
  | .phrase p => actionOf p
  | .action .ifThen => some .ifThen
  | .action .ifElse => some .ifElse
  | .action _ => none
  | .declared _ p _ => actionOf p

/-- The term is replaced when a tree is lowered. -/
def isLowered : Term → Bool
  | .leaf (.word w) _ _ => (datumOf w).isSome
  | .node k _ _ => (actionOfNode k).isSome
  | _ => false

/-- Lowers one node. -/
def lowerNode : Term → Except Error Term
  | .leaf (.word w) s v =>
    match datumOf w with
    | some d => (LeafKind.datum d).build [v]
    | none => .ok (.leaf (.word w) s v)
  | .node k s kids =>
    match actionOfNode k with
    | some a => (NodeKind.action a).build kids
    | none => .ok (.node k s kids)
  | t => .ok t

/-- Lowers a tree. -/
def lower (t : Term) : Except Error Term := t.transform lowerNode

/-- Lowers one node and notes it if it is replaced. -/
def lowerNoting (t : Term) : ExceptT Error (StateM (List Term)) Term := do
  if isLowered t then modify (· ++ [t])
  lowerNode t

/-- The nodes that are replaced when a tree is lowered, as they are at that moment and in that order,
up to the first failure. -/
def lowerings (t : Term) : List Term := ((t.transform lowerNoting).run.run []).2

/-- The words for the replacement of a node, if they can be written. -/
def loweringMessage? (t : Term) : Option String :=
  t.plain?.map fun s => "replacing " ++ s ++ " (" ++ t.kindOf.shown ++ ")"

end Tree

end Offside
