import Offside.Term.Build
/-!
# Operations on values

What the operators of the language do to values that have been evaluated already, when a value counts
as true, and when two values are the same.
-/

namespace Offside

/-! ## 1. Truth and sameness -/

namespace Term

/-- A value counts as true unless it is nothing, zero, an empty text or list, a node without children,
or the truth value false.  A truth value that holds something else is an error. -/
def truth : Term → Except Error Bool
  | nothing => .ok false
  | flag b => .ok b
  | number n => .ok (n != 0)
  | text s => .ok !s.isEmpty
  | seq items => .ok !items.isEmpty
  | leaf (.datum .bool) _ (flag b) => .ok b
  | leaf (.datum .bool) _ _ => .error .wrongKind
  | node _ _ kids => .ok !kids.isEmpty
  | _ => .ok true

/-- The number that a number or a truth value counts as. -/
def numeric? : Term → Option Int
  | number n => some n
  | flag b => some (if b then 1 else 0)
  | _ => none

mutual

/-- Two terms are the same: numbers and texts by what they are, lists and nodes member by member,
leaves by their site. -/
def same : Term → Term → Bool
  | nothing, nothing => true
  | text a, text b => a == b
  | kind a, kind b => a == b
  | signature _ a r, signature _ b q => a == b && r == q
  | arm a r, arm b q => a == b && same r q
  | seq as, seq bs => sameAll as bs
  | seq as, node _ _ bs => sameAll as bs
  | node _ _ as, seq bs => sameAll as bs
  | node _ _ as, node _ _ bs => sameAll as bs
  | leaf _ s _, leaf _ t _ => s.isSome && s == t
  | a, b =>
    match a.numeric?, b.numeric? with
    | some m, some n => m == n
    | _, _ => false

def sameAll : List Term → List Term → Bool
  | [], [] => true
  | a :: as, b :: bs => same a b && sameAll as bs
  | _, _ => false

end

end Term

/-! ## 2. What kinds can do -/

/-- The operations of a kind of leaf. -/
def Datum.operations : Datum → List String
  | .value => ["infer_type", "eval", "Eq"]
  | .int => ["infer_type", "eval", "Eq", "to_string", "to_int", "Add", "Less", "More", "Sub", "Mul", "Pow"]
  | .str | .shellCmd | .bool => ["infer_type", "eval", "Eq", "to_string"]
  | .regEx => ["infer_type", "eval", "Eq", "RegMatch"]
  | .var => ["infer_type", "eval", "Assign"]
  | .ret => ["eval"]
  | .alwaysTrue => ["infer_type", "eval", "Eq", "Bool"]
  | .comment => ["infer_type", "eval", "Eq"]

/-- The operations of a kind of node. -/
def Action.operations : Action → List String
  | .array => ["infer_type", "eval", "to_string", "Subscript"]
  | .thunk | .func => ["infer_type", "eval", "Call"]
  | .call | .composeR => ["eval"]
  | _ => ["infer_type", "eval"]

/-- The terms of a kind have this operation. -/
def Kind.can (k : Kind) (operation : String) : Bool :=
  match k with
  | .leaf (.datum d) => d.operations.contains operation
  | .node (.action a) => a.operations.contains operation
  | _ => false

/-- The failure of an operation that a term does not have.  A kind itself has the operations of its
terms, but nothing to apply them to. -/
def Term.refuse (t : Term) (operation : String) : Error :=
  match t with
  | .kind k => if k.can operation then .wrongKind else .kindLacks k operation
  | t => .ofMissing t operation

/-! ## 3. Integers -/

/-- From this size on an integer is too large to be taken as a fraction. -/
def fractionBound : Nat := Nat.pow 2 1024 - Nat.pow 2 970

/-- Integers below this size keep their last digit when they are taken as fractions. -/
def exactBound : Nat := Nat.pow 2 53

/-- A power with an exponent that is not negative. -/
def natPower (x : Int) (n : Nat) : Int :=
  let size := if x.natAbs = 1 then 1 else if x = 0 then (if n = 0 then 1 else 0) else x.natAbs.pow n
  if x < 0 && n % 2 = 1 then -size else size

/-- A power.  With a negative exponent it is a fraction, of which the whole part is taken. -/
def intPower (x y : Int) : Except Error Int :=
  if 0 ≤ y then .ok (natPower x y.toNat)
  else if fractionBound ≤ x.natAbs || fractionBound ≤ y.natAbs then .error .overflow
  else if x = 0 then .error .zeroDivision
  else if x = 1 then .ok 1
  else if x = -1 then .ok (if y.natAbs < exactBound && y.natAbs % 2 = 1 then -1 else 1)
  else .ok 0

/-- What an operator does to two integers, if it applies to them. -/
def intOperation : Action → Int → Int → Option (Except Error Term)
  | .add, x, y => some (.ok (.int (x + y)))
  | .sub, x, y => some (.ok (.int (x - y)))
  | .mul, x, y => some (.ok (.int (x * y)))
  | .pow, x, y => some ((intPower x y).map .int)
  | .eq, x, y => some (.ok (.bool (x == y)))
  | .less, x, y => some (.ok (.bool (x < y)))
  | .more, x, y => some (.ok (.bool (y < x)))
  | _, _, _ => none

/-! ## 4. All values -/

/-- The member at an index; a negative one counts from the end. -/
def memberAt (items : List Term) (i : Int) : Except Error Term :=
  let j := if i < 0 then i + items.length else i
  if j < 0 then .error .wrongIndex
  else
    match items[j.toNat]? with
    | some t => .ok t
    | none => .error .wrongIndex

/-- The member of an array that a value points at. -/
def element (items : List Term) : Term → Except Error Term
  | .leaf (.datum .int) _ (.number i) => memberAt items i
  | t => .error (t.refuse "to_int")

/-- What an operator does to two values. -/
def operate (a : Action) (left right : Term) : Except Error Term :=
  let unsupported := Except.error (Error.unsupported left a.name)
  match left, right with
  | .leaf (.datum .int) _ (.number x), .leaf (.datum .int) _ (.number y) =>
    (intOperation a x y).getD unsupported
  | .leaf (.datum d) _ v, .leaf _ _ w =>
    if a = .eq && d.isValue then .ok (.bool (v.same w)) else unsupported
  | .node (.action .array) _ items, i => if a = .subscript then element items i else unsupported
  | .kind k, _ => if k.can a.name then .error .wrongKind else unsupported
  | _, _ => unsupported

/-- The operator takes operands of one kind only. -/
def Action.sameKind : Action → Bool
  | .subscript | .regMatch => false
  | _ => true

/-- What an operator does to two values, after a look at their kinds. -/
def binary (a : Action) (left right : Term) : Except Error Term :=
  if a.sameKind && left.kindOf != right.kindOf then
    .error (.mixedOperands (.action a) left right)
  else operate a left right

end Offside
