import Offside.Term.Build
/-!
# Operators

An operator is declared by its sign, by the role it plays and by what it makes.  A sign may play two
roles: one at the start of an expression (`Opening`), one after a left operand (`Joining`).  A table
collects declarations.  How strongly a sign binds to its left is the strongest of all its
declarations; a later declaration of the same role takes the place of an earlier one.

The language has a word for each kind of `Declaration`: `prefix` for `before`, `infix` for `left`, `infix_r`
for `right`, `postfix` for `after`, `nullary` for `alone`, `brackets` for `enclosing`, `subscript` for
`index` and `ifelse` for `choice`.
-/

namespace Offside

/-- What an operator makes of its operands. -/
inductive Maker where
  | leaf (k : LeafKind)
  | node (k : NodeKind)
  /-- a leaf that is declared with fields, of which none can be made -/
  | fieldedLeaf (k : LeafKind)
  deriving DecidableEq, Repr

namespace Maker

def make : Maker → List Term → Except Error Term
  | leaf k, args => k.build args
  | node k, args => k.build args
  | fieldedLeaf k, args => do
    let _ ← k.build args
    .error .leafFields

def phrase (p : Phrase) : Maker := node (.phrase p)

def word (w : Word) : Maker := leaf (.word w)

end Maker

/-- The role of a sign at the start of an expression. -/
inductive Opening where
  /-- an operand follows, up to a sign that binds no stronger than `power` -/
  | before (power : Int) (m : Maker)
  /-- the sign stands for itself -/
  | alone (m : Maker)
  /-- an expression and the closing sign follow -/
  | enclosing (close : String) (m : Maker)
  deriving Repr

/-- The role of a sign after a left operand. -/
inductive Joining where
  /-- a right operand follows; of equal signs the left one is applied first -/
  | left (m : Maker)
  /-- a right operand follows; of equal signs the right one is applied first -/
  | right (m : Maker)
  /-- nothing follows -/
  | after (m : Maker)
  /-- an expression follows, and then the closing sign if there is one -/
  | index (close : Option String) (m : Maker)
  /-- a condition, the sign `else` and an expression follow -/
  | choice (m : Maker)
  deriving Repr

/-- What is known about a sign. -/
structure Operator where
  power : Int
  opening : Option Opening := none
  joining : Option Joining := none
  deriving Repr

/-- The declarations of operators. -/
inductive Declaration where
  | before (sign : String) (power : Int) (m : Maker)
  | left (sign : String) (power : Int) (m : Maker)
  | right (sign : String) (power : Int) (m : Maker)
  | after (sign : String) (power : Int) (m : Maker)
  | alone (sign : String) (m : Maker)
  | enclosing (opening closing : String) (m : Maker)
  | index (opening : String) (closing : Option String) (m : Maker)
  | choice (power : Int) (m : Maker)
  deriving Repr

/-- A table of operators, in the order in which their signs came up.  An index without a closing sign
leaves an entry without a sign. -/
structure OperatorTable where
  entries : List (Option String × Operator) := []
  deriving Repr

namespace OperatorTable

/-- How strongly an index binds, whatever is declared. -/
def indexPower : Int := 1000

/-- The operator with a sign. -/
def find? (t : OperatorTable) (sign : String) : Option Operator :=
  t.entries.lookup (some sign)

/-- The operator that stands for a sign among the tokens. -/
def token (t : OperatorTable) (sign : String) : Except Error Term :=
  match t.find? sign with
  | some _ => .ok (.symbol sign)
  | none => .error (.noKey sign)

/-- Changes the entry for a sign, or adds one. -/
def alter (sign : Option String) (f : Operator → Operator) :
    List (Option String × Operator) → List (Option String × Operator)
  | [] => [(sign, f { power := 0 })]
  | (s, o) :: rest => if s = sign then (s, f o) :: rest else (s, o) :: alter sign f rest

/-- The sign is there already. -/
def has (t : OperatorTable) (sign : Option String) : Bool := t.entries.any (·.1 == sign)

/-- Notes that a sign binds with at least this power. -/
def register (t : OperatorTable) (sign : Option String) (power : Int) : OperatorTable :=
  let fresh := !t.has sign
  ⟨alter sign (fun o => { o with power := if fresh then power else max power o.power }) t.entries⟩

def setOpening (t : OperatorTable) (sign : String) (r : Opening) : OperatorTable :=
  ⟨alter (some sign) (fun o => { o with opening := some r }) t.entries⟩

def setJoining (t : OperatorTable) (sign : String) (r : Joining) : OperatorTable :=
  ⟨alter (some sign) (fun o => { o with joining := some r }) t.entries⟩

/-- Adds a declaration. -/
def declare (t : OperatorTable) : Declaration → OperatorTable
  | .before s p m => (t.register (some s) 0).setOpening s (.before p m)
  | .alone s m => (t.register (some s) 0).setOpening s (.alone m)
  | .enclosing o c m => ((t.register (some o) 0).setOpening o (.enclosing c m)).register (some c) 0
  | .left s p m => (t.register (some s) p).setJoining s (.left m)
  | .right s p m => (t.register (some s) p).setJoining s (.right m)
  | .after s p m => (t.register (some s) p).setJoining s (.after m)
  | .index o c m => ((t.register (some o) indexPower).setJoining o (.index c m)).register c 0
  | .choice p m => ((t.register (some "if") p).setJoining "if" (.choice m)).register (some "else") 0

/-- The table of a list of declarations. -/
def ofDeclarations (ds : List Declaration) : OperatorTable := ds.foldl declare {}

end OperatorTable

end Offside
