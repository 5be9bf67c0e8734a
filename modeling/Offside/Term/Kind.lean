/-!
# Kinds of terms

Everything the language handles is a term: a token, a node of a syntax tree, a value.  Each term has
a kind.  There are two families of leaves and two of inner nodes.

* `Word` and `Phrase` are what a text is read into.
* `Datum` and `Action` are what can be run.

A kind of inner node says how many children it has by naming them; some kinds take any number.  The
names of kinds are shown to the user: in printed trees, in messages, and in printed types.
-/

namespace Offside

/-! ## 1. Leaves -/

/-- The leaves that a text is read into. -/
inductive Word where
  | leaf | comment | str | shellCmd | regEx | int | id | alwaysTrue | ret | var
  deriving DecidableEq, Repr

/-- The leaves that can be run. -/
inductive Datum where
  | value | int | str | shellCmd | bool | regEx | var | ret | alwaysTrue | comment
  deriving DecidableEq, Repr

/-- The kinds of leaves.  A reader of other operators may declare its own, after the model of one that
there is. -/
inductive LeafKind where
  | word (w : Word)
  | datum (d : Datum)
  | declared (name : String) (base : Word)
  deriving DecidableEq, Repr

def Word.name : Word → String
  | leaf => "Leaf"
  | comment => "Comment"
  | str => "Str"
  | shellCmd => "ShellCmd"
  | regEx => "RegEx"
  | int => "Int"
  | id => "Id"
  | alwaysTrue => "AlwaysTrue"
  | ret => "Return"
  | var => "Var"

def Datum.name : Datum → String
  | value => "Value"
  | int => "Int"
  | str => "Str"
  | shellCmd => "ShellCmd"
  | bool => "Bool"
  | regEx => "RegEx"
  | var => "Var"
  | ret => "Return"
  | alwaysTrue => "AlwaysTrue"
  | comment => "Comment"

def LeafKind.name : LeafKind → String
  | word w => w.name
  | datum d => d.name
  | declared n _ => n

/-- The data that stand for themselves when run: all but names and `return`. -/
def Datum.isValue : Datum → Bool
  | var | ret => false
  | _ => true

/-! ## 2. Inner nodes -/

/-- The inner nodes that a text is read into. -/
inductive Phrase where
  | node | list | unary | binary | expr | block
  | print | check | minus | plus | select | thunk | callBare
  | composeR | composeL | lambda | ifThen | assign | call
  | eq | regMatch | less | more | add | sub | mul | pow
  | parens | brackets | subscript | comma | ifElse
  deriving DecidableEq, Repr

/-- The inner nodes that can be run. -/
inductive Action where
  | array | binOp | boolOp | thunk | func | block | print | check | regMatch | assign
  | add | sub | mul | eq | less | more | pow | subscript | parens | ifThen | ifElse | select
  | callBare | call | composeR
  deriving DecidableEq, Repr

/-- The names that a kind gives to its children.  `many` is for plain lists of children, `free` for
nodes that have no names for theirs; both take any number. -/
inductive Fields where
  | many
  | free
  | named (first : String) (rest : List String)
  deriving DecidableEq, Repr

/-- The kinds of inner nodes.  A reader of other operators may declare its own, after the model of one
that there is. -/
inductive NodeKind where
  | phrase (p : Phrase)
  | action (a : Action)
  | declared (name : String) (base : Phrase) (fields : Fields)
  deriving DecidableEq, Repr

namespace Fields

def unary : Fields := named "arg" []

def binary : Fields := named "left" ["right"]

def names : Fields → List String
  | named f rest => f :: rest
  | _ => []

/-- Fields from a list of names. -/
def ofList : List String → Fields
  | [] => free
  | f :: rest => named f rest

end Fields

def Phrase.name : Phrase → String
  | node => "Node"
  | list => "ListNode"
  | unary => "Unary"
  | binary => "Binary"
  | expr => "Expr"
  | block => "Block"
  | print => "Print"
  | check => "Assert"
  | minus => "Minus"
  | plus => "Plus"
  | select => "Match"
  | thunk => "Lambda0"
  | callBare => "Call0"
  | composeR => "ComposeR"
  | composeL => "ComposerL"
  | lambda => "Lambda"
  | ifThen => "IfThen"
  | assign => "Assign"
  | call => "Call"
  | eq => "Eq"
  | regMatch => "RegMatch"
  | less => "Less"
  | more => "More"
  | add => "Add"
  | sub => "Sub"
  | mul => "Mul"
  | pow => "Pow"
  | parens => "Parens"
  | brackets => "Brackets"
  | subscript => "Subscript"
  | comma => "Comma"
  | ifElse => "IfElse"

def Phrase.fields : Phrase → Fields
  | node | expr | block | select => .free
  | list | parens | comma => .many
  | unary | print | check | minus | plus | thunk | callBare | brackets => .unary
  | lambda => .named "args" ["body"]
  | ifThen => .named "iff" ["then"]
  | ifElse => .named "iff" ["then", "otherwise"]
  | binary | composeR | composeL | assign | call | eq | regMatch | less | more | add | sub | mul
  | pow | subscript => .binary

def Action.name : Action → String
  | array => "Array"
  | binOp => "BinOp"
  | boolOp => "BoolOp"
  | thunk => "Func0"
  | func => "Func"
  | block => "Block"
  | print => "Print"
  | check => "Assert"
  | regMatch => "RegMatch"
  | assign => "Assign"
  | add => "Add"
  | sub => "Sub"
  | mul => "Mul"
  | eq => "Eq"
  | less => "Less"
  | more => "More"
  | pow => "Pow"
  | subscript => "Subscript"
  | parens => "Parens"
  | ifThen => "IfThen"
  | ifElse => "IfElse"
  | select => "Match"
  | callBare => "Call0"
  | call => "Call"
  | composeR => "ComposeR"

def Action.fields : Action → Fields
  | block => .free
  | array => .many
  | print | check | parens | select | callBare => .unary
  | thunk => .named "body" []
  | func => .named "args" ["body"]
  | ifThen => .named "iff" ["then"]
  | ifElse => .named "iff" ["then", "otherwise"]
  | call => .named "func" ["args"]
  | binOp | boolOp | regMatch | assign | add | sub | mul | eq | less | more | pow | subscript
  | composeR => .binary

def NodeKind.name : NodeKind → String
  | phrase p => p.name
  | action a => a.name
  | declared n _ _ => n

def NodeKind.fields : NodeKind → Fields
  | phrase p => p.fields
  | action a => a.fields
  | declared _ _ f => f

/-- The name under which a node is written: a statement is always called one. -/
def NodeKind.heading : NodeKind → String
  | declared _ .expr _ => Phrase.expr.name
  | k => k.name

/-- The names that are written before the children.  Lists and statements are written without any. -/
def NodeKind.labels : NodeKind → List String
  | declared _ base f => if base = .expr || base.fields = .many then [] else f.names
  | k => k.fields.names

/-! ## 3. All kinds -/

/-- The kind of a term. -/
inductive Kind where
  /-- of the one term that stands for nothing -/
  | nothing
  | flag
  | number
  /-- of fractions, which only occur as the name of a kind -/
  | real
  | text
  | seq
  /-- of the answer of one arm of a `match` -/
  | arm
  | dent
  | symbol (sign : String)
  /-- of kinds themselves -/
  | kind
  | signature
  | leaf (k : LeafKind)
  | node (k : NodeKind)
  deriving DecidableEq, Repr

namespace Kind

def name : Kind → String
  | nothing => "NoneType"
  | flag => "bool"
  | number => "int"
  | real => "float"
  | text => "str"
  | seq => "list"
  | arm => "tuple"
  | dent => "DENT"
  | symbol s => "Sym('" ++ s ++ "')"
  | kind => "type"
  | signature => "Type"
  | leaf k => k.name
  | node k => k.name

/-- The part of the language that a kind belongs to, if it is not one of the basic ones. -/
def part? : Kind → Option String
  | dent => some "tokenizer"
  | symbol _ => some "pratt"
  | signature => some "interpreter"
  | leaf (.word _) => some "ast"
  | leaf (.datum _) => some "interpreter"
  | node (.phrase _) => some "ast"
  | node (.action _) => some "interpreter"
  | _ => none

/-- How a kind is shown. -/
def shown (k : Kind) : String :=
  match k.part? with
  | some p => "<class '" ++ p ++ "." ++ k.name ++ "'>"
  | none => "<class '" ++ k.name ++ "'>"

def word (w : Word) : Kind := leaf (.word w)

def datum (d : Datum) : Kind := leaf (.datum d)

def phrase (p : Phrase) : Kind := node (.phrase p)

def action (a : Action) : Kind := node (.action a)

end Kind

end Offside
