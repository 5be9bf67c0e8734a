import Offside.Operator.Reader
import Offside.Operator.Standard
import Offside.Tree.Transform
/-!
# From statements to a syntax tree

Statements are lists of tokens.  Four passes over the whole tree make a syntax tree of them.

1. `insertCalls` puts the sign of a call between a name and a number, a name or an opening bracket
   (`implicit_calls`).
2. `precedence` reads each statement as an expression.
3. `nameParameters` makes a list of names of the parameters of a function (`func_args`).
4. `bracketArguments` encloses the arguments of a call in brackets (`call_args`).

In brackets are the names that the passes have in the language, where these differ.

The third one also runs before the others, for trees that hold functions already.
-/

namespace Offside

namespace Tree

/-- The passes. -/
inductive Pass where
  | insertCalls
  | precedence
  | nameParameters
  | bracketArguments
  | bracketValue
  deriving DecidableEq, Repr

/-- The sign that stands for a call. -/
def callSign : Term := .symbol "@"

/-- A call is meant between a name and this token. -/
def startsArgument : Term → Except Error Bool
  | .leaf (.word .int) _ _ => .ok true
  | .leaf (.word .id) _ _ => .ok true
  | .symbol s => .ok (s = "(")
  | t => .error (.ofMissing t "sym")

/-- Puts the sign of a call where one is meant; `prev` is the token before. -/
def markCalls (prev : Option Term) : List Term → Except Error (List Term)
  | [] => .ok []
  | t :: ts => do
    let here ← if prev.any (Term.isWord .id) then startsArgument t else pure false
    let rest ← markCalls (some t) ts
    return if here then callSign :: t :: rest else t :: rest

def insertCalls : Term → Except Error Term
  | .node (.phrase .expr) s kids =>
    if kids.length < 2 then .ok (.node (.phrase .expr) s kids)
    else do return .phrase .expr (← markCalls none kids)
  | t => .ok t

def precedence : Term → Except Error Term
  | .node (.phrase .expr) _ kids => OperatorTable.standard.read kids
  | t => .ok t

/-- The parameters of a function, from what stands before the arrow: one member, which is a name or a
comma of terms. -/
def parameters (args : Term) : Except Error Term := do
  let name (t : Term) : Except Error Term := return .leaf (.word .id) none (← t.value)
  match ← args.members with
  | [.node (.phrase .comma) _ names] => return .phrase .list (← names.mapM name)
  | [.leaf (.word .id) s v] => return .phrase .list [← name (.leaf (.word .id) s v)]
  | [_] => .error .parameterNames
  | _ => .error .parameterList

def nameParameters : Term → Except Error Term
  | .node (.phrase .lambda) s [args, body] => do
    return .node (.phrase .lambda) s [← parameters args, body]
  | t => .ok t

def bracketArguments : Term → Except Error Term
  | .node (.phrase .call) s [left, right] =>
    if right.isPhrase .comma then .ok (.phrase .call [left, .phrase .brackets [right]])
    else .ok (.node (.phrase .call) s [left, right])
  | t => .ok t

/-- Brackets have no value of their own to look at. -/
def bracketValue : Term → Except Error Term
  | .node (.phrase .brackets) _ _ => .error (.lacks (.phrase .brackets) "value")
  | t => .ok t

namespace Pass

/-- What a pass does to one node. -/
def apply : Pass → Term → Except Error Term
  | insertCalls => Tree.insertCalls
  | precedence => Tree.precedence
  | nameParameters => Tree.nameParameters
  | bracketArguments => Tree.bracketArguments
  | bracketValue => Tree.bracketValue

def name : Pass → String
  | insertCalls => "implicit_calls"
  | precedence => "precedence"
  | nameParameters => "func_args"
  | bracketArguments => "call_args"
  | bracketValue => "array_csv"

/-- What a pass does to a tree. -/
def run (p : Pass) (t : Term) : Except Error Term := t.transform p.apply

end Pass

/-- The passes in order. -/
def passes : List Pass := [.insertCalls, .precedence, .nameParameters, .bracketArguments]

/-- The syntax tree of blocks of statements. -/
def parse (t : Term) : Except Error Term := do
  let t ← Pass.nameParameters.run t
  passes.foldlM (fun t p => p.run t) t

end Tree

end Offside
