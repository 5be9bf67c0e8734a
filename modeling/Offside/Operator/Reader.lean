import Offside.Operator.Table
/-!
# Reading an expression by precedence

`OperatorTable.expr` reads an operand and then, as long as the next sign binds stronger than `power`, lets
that sign take the operand as its left side.  What a sign does at the start of an expression is known as its
`nud`, what it does after a left operand as its `led`, and the two powers that are compared as `rbp` and
`lbp`.  Every call takes a token before it goes on, so the number of tokens bounds the depth; `read` starts
with enough.

The list of tokens that are left is the whole state.  When it is empty, the mark at the end of the
tokens is next: it binds with power 0, and nothing can be taken after it.
-/

namespace Offside

namespace OperatorTable

variable (t : OperatorTable)

/-- How strongly a token binds to its left. -/
def power : Term → Except Error Int
  | .leaf _ _ _ => .ok 0
  | .symbol s =>
    match t.find? s with
    | some o => .ok o.power
    | none => .error (.lacks (.symbol s) "lbp")
  | tok => .error (.ofMissing tok "lbp")

/-- Takes a token, which must be the given sign.  The empty sign stands for any token. -/
def expect (sign : String) : List Term → Except Error (List Term)
  | [] => .error .endOfTokens
  | tok :: rest =>
    if sign.isEmpty then .ok rest
    else
      match tok with
      | .symbol s => if s = sign then .ok rest else .error (.expected sign)
      | _ => .error (.ofMissing tok "sym")

/-- A reader of expressions: it goes on up to a sign that binds no stronger than the power given. -/
abbrev ExprReader := Int → List Term → Except Error (Term × List Term)

/-- What the sign `s` makes at the start of an expression; `expr` reads what follows. -/
def readOpening (expr : ExprReader) (s : String) (rest : List Term) : Opening → Except Error (Term × List Term)
  | .before p m => do
    let (arg, rest) ← expr p rest
    return (← m.make [arg], rest)
  | .alone m => do
    return (← m.make [.text s], rest)
  | .enclosing close m => do
    let (arg, rest) ← expr 0 rest
    let rest ← expect close rest
    return (← m.make [arg], rest)

/-- What a sign of power `p` makes of a left operand; `expr` reads what follows. -/
def readJoining (expr : ExprReader) (p : Int) (left : Term) (rest : List Term) :
    Joining → Except Error (Term × List Term)
  | .left m => do
    let (right, rest) ← expr p rest
    return (← m.make [left, right], rest)
  | .right m => do
    let (right, rest) ← expr (p - 1) rest
    return (← m.make [left, right], rest)
  | .after m => do
    return (← m.make [left], rest)
  | .index close m => do
    let (right, rest) ← expr 0 rest
    let rest ← match close with
      | some c => if c.isEmpty then pure rest else expect c rest
      | none => pure rest
    return (← m.make [left, right], rest)
  | .choice m => do
    let (condition, rest) ← expr 0 rest
    let rest ← expect "else" rest
    let (otherwise, rest) ← expr 0 rest
    return (← m.make [condition, left, otherwise], rest)

/-- What a token is at the start of an expression: a leaf or a block is itself. -/
def start (expr : ExprReader) (tok : Term) (rest : List Term) : Except Error (Term × List Term) :=
  match tok with
  | .leaf _ _ _ => .ok (tok, rest)
  | .node (.phrase .block) _ _ => .ok (tok, rest)
  | .symbol s =>
    match (t.find? s).bind (·.opening) with
    | some r => readOpening expr s rest r
    | none => .error (.lacks (.symbol s) "nud")
  | _ => .error (.ofMissing tok "nud")

/-- What a token makes of a left operand. -/
def join (expr : ExprReader) (tok left : Term) (rest : List Term) : Except Error (Term × List Term) :=
  match tok with
  | .symbol s =>
    match t.find? s with
    | some ⟨p, _, some r⟩ => readJoining expr p left rest r
    | _ => .error (.lacks (.symbol s) "led")
  | _ => .error (.ofMissing tok "led")

mutual

/-- Reads an expression up to a sign that binds no stronger than `power`. -/
def expr : Nat → (power : Int) → List Term → Except Error (Term × List Term)
  | 0, _, _ => .error .recursion
  | _ + 1, _, [] => .error .endOfTokens
  | fuel + 1, p, tok :: rest => do
    let (left, rest) ← t.start (expr fuel) tok rest
    extend fuel p left rest

/-- Lets signs that bind stronger than `power` take what has been read as their left side. -/
def extend : Nat → (power : Int) → (left : Term) → List Term → Except Error (Term × List Term)
  | 0, _, _, _ => .error .recursion
  | _ + 1, p, left, [] => if p < 0 then .error .endOfTokens else .ok (left, [])
  | fuel + 1, p, left, tok :: rest => do
    if p < (← t.power tok) then
      let (left, rest) ← t.join (expr fuel) tok left rest
      extend fuel p left rest
    else return (left, tok :: rest)

end

/-- Reads a list of tokens as one expression. -/
def read (toks : List Term) : Except Error Term :=
  if t.entries.isEmpty then .error .noOperators
  else do
    let (result, rest) ← t.expr (toks.length + 2) 0 toks
    if rest.isEmpty then return result else .error .leftover

end OperatorTable

end Offside
