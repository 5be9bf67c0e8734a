import Offside.Term.Kind
/-!
# Terms

A term is a token, a node of a syntax tree, or a value.  Nodes and leaves may carry a *site*, a number
that tells apart nodes that look alike; what is found out about a node (its type, for instance) is
recorded against its site.
-/

namespace Offside

/-- The arguments in a signature: none, a single kind, or a list of kinds. -/
inductive SigArgs where
  | none
  | one (k : Kind)
  | many (ks : List Kind)
  deriving DecidableEq, Repr

/-- What tells apart nodes that look alike. -/
abbrev Site := Option Nat

inductive Term where
  | nothing
  | flag (b : Bool)
  | number (n : Int)
  | text (s : String)
  | seq (items : List Term)
  /-- the answer of one arm of a `match`: whether it was taken, and its result -/
  | arm (taken : Bool) (result : Term)
  /-- the column at which a line begins -/
  | dent (column : Int)
  /-- an operator -/
  | symbol (sign : String)
  | kind (k : Kind)
  /-- a type: what is taken and what is given back -/
  | signature (site : Site) (args : SigArgs) (ret : Kind)
  | leaf (k : LeafKind) (site : Site) (payload : Term)
  | node (k : NodeKind) (site : Site) (kids : List Term)
  deriving BEq, Repr, Inhabited

namespace Term

/-! ## 1. Making terms -/

def word (w : Word) (s : String) : Term := leaf (.word w) none (text s)

def datum (d : Datum) (payload : Term) : Term := leaf (.datum d) none payload

def phrase (p : Phrase) (kids : List Term) : Term := node (.phrase p) none kids

def action (a : Action) (kids : List Term) : Term := node (.action a) none kids

def int (n : Int) : Term := datum .int (number n)

def str (s : String) : Term := datum .str (text s)

def bool (b : Bool) : Term := datum .bool (flag b)

/-! ## 2. Looking at terms -/

/-- The kind of a term. -/
def kindOf : Term → Kind
  | nothing => .nothing
  | flag _ => .flag
  | number _ => .number
  | text _ => .text
  | seq _ => .seq
  | arm _ _ => .arm
  | dent _ => .dent
  | symbol s => .symbol s
  | kind _ => .kind
  | signature _ _ _ => .signature
  | leaf k _ _ => .leaf k
  | node k _ _ => .node k

/-- The site of a term. -/
def site : Term → Site
  | signature s _ _ => s
  | leaf _ s _ => s
  | node _ s _ => s
  | _ => none

def isNode : Term → Bool
  | node _ _ _ => true
  | _ => false

/-- The term is an inner node of this kind. -/
def isPhrase (p : Phrase) : Term → Bool
  | node (.phrase q) _ _ => p = q
  | _ => false

/-- The term is a leaf of this kind. -/
def isWord (w : Word) : Term → Bool
  | leaf (.word v) _ _ => w = v
  | _ => false

/-- The members of a term that has members: the children of a node, the items of a list, the
characters of a text, the two parts of an arm's answer. -/
def members? : Term → Option (List Term)
  | node _ _ kids => some kids
  | seq items => some items
  | text s => some (s.toList.map fun c => text (String.ofList [c]))
  | arm b r => some [flag b, r]
  | _ => Option.none

/-- The child of a node under a name. -/
def child? : Term → String → Option Term
  | node k _ kids, name =>
    (k.fields.names.findIdx? (· == name)).bind fun i => kids[i]?
  | _, _ => Option.none

end Term

end Offside
