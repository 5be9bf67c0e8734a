import Offside.Term.Printer
/-!
# What can go wrong

An `Error` is a cause: it holds what is needed to say what happened.  `Error.fault` sorts the causes
into classes, and `Error.message?` gives the words.  Some messages show a term; one with a number that
is too long to be written has no words, and the failure to write it takes the place of the cause
(`Error.settled`).
-/

namespace Offside

/-- Classes of errors. -/
inductive Fault where
  | failure
  | assertion
  | wrongToken
  | noAttribute
  | noKey
  | commandFailed
  | fileMissing
  /-- a class of the system below, with its name -/
  | system (name : String)
  | returned
  | endOfTokens
  | wrongKind
  | wrongValue
  | wrongIndex
  | zeroDivision
  | overflow
  | recursion
  | badPattern
  | unassigned
  deriving DecidableEq, Repr

/-- Causes of errors. -/
inductive Error where
  /-- no token at the start of a line -/
  | noToken (line : String)
  /-- no token at a column of a line -/
  | badLine (number : Nat) (line : String) (column : Nat)
  /-- there are no operators to read with -/
  | noOperators
  | endOfTokens
  | leftover
  | expected (sign : String)
  /-- there is nothing under this key -/
  | noKey (key : String)
  /-- a node has not as many children as its kind has fields -/
  | fieldCount
  /-- a leaf is declared with fields -/
  | leafFields
  /-- a term of this kind has no such trait -/
  | lacks (owner : Kind) (trait : String)
  /-- the kind, taken as a term, has no such trait -/
  | kindLacks (owner : Kind) (trait : String)
  | parameterList
  | parameterNames
  | unknownVariable (name : Term)
  | mixedOperands (op : Kind) (left right : Term)
  | unsupported (left : Term) (operation : String)
  | assertionFailed (arg : Term)
  | notAnArm
  | argumentCount
  | returned
  | commandFailed (words : List String) (status : Nat)
  | fileMissing (name : String)
  /-- the system below could not do what it was asked for; it gives the class and the words -/
  | system (name message : String)
  | argTypes (got : Term)
  | argType (got : Term)
  | unknownType (got : Term)
  | retType (got : Term)
  | operandTypes (left right : Term)
  | checkType
  | assignTarget
  /-- a condition that is not a truth value, or branches of different types -/
  | branchTypes
  | wrongKind
  | wrongValue
  | wrongIndex
  | zeroDivision
  | overflow
  | recursion
  | badPattern
  | unassigned
  deriving BEq, Repr, Inhabited

namespace Error

/-- The class of an error. -/
def fault : Error → Fault
  | noToken _ | badLine _ _ _ | leftover | fieldCount | unknownVariable _ | mixedOperands _ _ _
  | assertionFailed _ | unknownType _ => .failure
  | noOperators | leafFields | parameterList | parameterNames | unsupported _ _ | notAnArm
  | argumentCount | argTypes _ | argType _ | retType _ | operandTypes _ _ | checkType | assignTarget
  | branchTypes => .assertion
  | expected _ => .wrongToken
  | lacks _ _ | kindLacks _ _ => .noAttribute
  | noKey _ => .noKey
  | commandFailed _ _ => .commandFailed
  | fileMissing _ => .fileMissing
  | system name _ => .system name
  | returned => .returned
  | endOfTokens => .endOfTokens
  | wrongKind => .wrongKind
  | wrongValue => .wrongValue
  | wrongIndex => .wrongIndex
  | zeroDivision => .zeroDivision
  | overflow => .overflow
  | recursion => .recursion
  | badPattern => .badPattern
  | unassigned => .unassigned

/-- The second line under a line that could not be read: it points at the column, from the left if
there is room and from the right otherwise. -/
def pointer (column : Nat) : String :=
  if 5 < column then "here " ++ "".pushn '─' (column - 4) ++ "┘"
  else "".pushn ' ' (column + 1) ++ "└─── error is somewhere here"

/-- Texts between square brackets and in quotes. -/
def quotedList (words : List String) : String :=
  "[" ++ ", ".intercalate (words.map Text.quoted) ++ "]"

/-- A term that lacks a trait. -/
def ofMissing (owner : Term) (trait : String) : Error :=
  match owner with
  | .kind k => kindLacks k trait
  | t => lacks t.kindOf trait

/-- The words for an error, if they can be written. -/
def message? : Error → Option String
  | noToken line => some ("cannot parse string:\n" ++ line)
  | badLine n line column =>
    some ("Cannot parse line " ++ Nat.repr n ++ ":\n\"" ++ line ++ "\"\n" ++ pointer column ++ "\n")
  | noOperators => some ("No operators registered." ++
      "Please define at least one operator decorated with infix()/prefix()/etc")
  | leftover => some ("not all tokens was parsed: either there is " ++
      "a grammar error or problem with operators")
  | expected sign => some ("Expected " ++ Text.quoted sign)
  | noKey key => some (Text.quoted key)
  | fieldCount => some "Number of arguments mismatch defined fields"
  | leafFields => some "Leaf subclass cannot have fields attribute (it's not a Node)"
  | lacks owner a =>
    match owner with
    | .node k => some ("Unknown attribute \"" ++ a ++ "\" for " ++ owner.shown ++
        " (" ++ k.fields.shown ++ ")")
    | _ => some ("'" ++ owner.name ++ "' object has no attribute '" ++ a ++ "'")
  | kindLacks owner a => some ("type object '" ++ owner.name ++ "' has no attribute '" ++ a ++ "'")
  | parameterList =>
    some "function arguments should be in parentheses and separated by commas"
  | parameterNames =>
    some "function argument can be a single ID or some IDs separated by commas"
  | unknownVariable name => name.plain?.map fun s => "unknown variable \"" ++ s ++ "\""
  | mixedOperands op left right =>
    match left.plain?, right.plain? with
    | some l, some r => some (op.shown ++ ":left and right values should have the same type, " ++
        "got\n " ++ l ++ " \nand\n " ++ r ++ " instead")
    | _, _ => none
  | unsupported left op => left.plain?.map fun l =>
    l ++ " (" ++ left.kindOf.shown ++ ") does not support " ++ op ++ " operation"
  | assertionFailed arg => arg.plain?.map ("Assertion failed on " ++ ·)
  | notAnArm => some "Child nodes of match operator canonly be instances of IfThen"
  | commandFailed words status => some ("Command '" ++ quotedList words ++
      "' returned non-zero exit status " ++ Nat.repr status ++ ".")
  | fileMissing name => some ("[Errno 2] No such file or directory: " ++ Text.quoted name)
  | system _ message => some message
  | argTypes got => got.plain?.map fun s => "args should a list of types (got " ++ s ++ ")"
  | argType got => got.plain?.map fun s => "args should be a type, (got " ++ s ++ ")"
  | unknownType got => got.plain?.map ("Unknown type " ++ ·)
  | retType got => got.plain?.map fun s =>
    "ret should be a Type instance or class, (got " ++ s ++ ")"
  | operandTypes left right =>
    match left.plain?, right.plain? with
    | some l, some r => some ("left and right types should have the same type. Got \"" ++ l ++
        "\" and \"" ++ r ++ "\" respectively.")
    | _, _ => none
  | checkType => some "Assert works only with boolean expressions"
  | assignTarget => some "can only assign to Var"
  | endOfTokens | argumentCount | returned | branchTypes | wrongKind | wrongValue | wrongIndex
  | zeroDivision | overflow | recursion | badPattern | unassigned => some ""

/-- The error that is reported: the cause, or the failure to find words for it. -/
def settled (e : Error) : Error :=
  match e.message? with
  | some _ => e
  | none => wrongValue

end Error

end Offside
