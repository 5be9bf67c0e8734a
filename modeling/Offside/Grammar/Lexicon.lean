import Offside.Grammar.Basic
import Offside.Operator.Standard
/-!
# The tokens of the language as a grammar

The same tokens that the lexer cuts a line into, written as a grammar: constants, comments, operators
and names, and the line as a row of them.  `Lexicon.standard` is a book with all of these, under the
names by which they are known.

`Workshop` makes grammars from specifications and gives them names.
-/

namespace Offside

/-- How a grammar is made. -/
inductive GrammarSpec where
  | regex (source : String) (m : TokenMaker) (keepsText : Bool)
  | sign (s : String) (m : TokenMaker)
  | combine (way : Combination) (parts : List GrammarSpec)
  /-- one after the other: a row is extended -/
  | and (a b : GrammarSpec)
  /-- one or the other: a choice is extended -/
  | or (a b : GrammarSpec)
  | named (name : String)
  /-- a grammar of the language -/
  | token (name : String)

/-- Grammars with names, and the book they are written in. -/
structure Workshop where
  book : RuleBook RegexLexeme := {}
  names : List (String × Grammar RegexLexeme) := []
  /-- the grammars of the language -/
  tokens : List (String × Grammar RegexLexeme) := []

namespace Workshop

/-- Something done in a workshop. -/
abbrev Work (α : Type) := ExceptT Error (StateM Workshop) α

/-- Does something to the book. -/
def inBook {α : Type} (f : RuleBook RegexLexeme → α × RuleBook RegexLexeme) : Work α := do
  let w ← get
  let (a, b) := f w.book
  set { w with book := b }
  return a

mutual

/-- Makes the grammar of a specification. -/
def build : GrammarSpec → Work (Grammar RegexLexeme)
  | .regex source m keepsText => do return .lexeme (← RegexLexeme.ofRegex source m keepsText)
  | .sign s m => do return .lexeme (← RegexLexeme.ofSign s m)
  | .combine way parts => do
    let gs ← buildAll parts
    inBook fun b => b.add way gs
  | .and a b => do
    let g ← build a
    let h ← build b
    inBook fun b => b.extend .row g h
  | .or a b => do
    let g ← build a
    let h ← build b
    inBook fun b => b.extend .choice g h
  | .named n => do
    match (← get).names.lookup n with
    | some g => return g
    | none => throw (.noKey n)
  | .token n => do
    match (← get).tokens.lookup n with
    | some g => return g
    | none => throw (.noKey n)

def buildAll : List GrammarSpec → Work (List (Grammar RegexLexeme))
  | [] => return []
  | s :: ss => do
    let g ← build s
    return g :: (← buildAll ss)

end

/-- Makes a grammar and gives it a name. -/
def define (name : String) (s : GrammarSpec) : Work (Grammar RegexLexeme) := do
  let g ← build s
  modify fun w => { w with names := (name, g) :: w.names.filter (·.1 != name) }
  return g

/-- Makes a grammar of the language. -/
def defineToken (name : String) (s : GrammarSpec) : Work Unit := do
  let g ← build s
  modify fun w => { w with tokens := w.tokens ++ [(name, g)] }

/-- The grammar with a name. -/
def find (w : Workshop) (name : String) : Except Error (Grammar RegexLexeme) :=
  match w.names.lookup name with
  | some g => .ok g
  | none => .error (.noKey name)

end Workshop

namespace Lexicon

open GrammarSpec

/-- The grammars of the language, in the order in which they are made. -/
def entries : List (String × GrammarSpec) :=
  [ ("FLOATCONST", regex "\\d+\\.\\d*" .text true),
    ("INTCONST", regex "\\d+" (.word .int) true),
    ("STRCONST", regex "\"(.*)\"" (.word .str) true),
    ("SHELLCMD", regex "`(.*)`" (.word .shellCmd) true),
    ("REGEX", regex "/(.*)/" (.word .regEx) true),
    ("CONST", or (or (or (or (token "FLOATCONST") (token "INTCONST")) (token "STRCONST"))
      (token "SHELLCMD")) (token "REGEX")),
    ("SHELLCOMMENT", regex "\\#.*" (.word .comment) true),
    ("CPPCOMMENT", regex "//.*" (.word .comment) true),
    ("CCOMMENT", regex "/\\*.*?\\*/" (.word .comment) true),
    ("COMMENT", or (or (token "SHELLCOMMENT") (token "CCOMMENT")) (token "CPPCOMMENT")),
    ("EOL", regex "$" .text true),
    ("END", or (token "EOL") (GrammarSpec.and (token "COMMENT") (token "EOL"))),
    ("ID", regex "[A-Za-z_][a-zA-Z0-9_]*" (.word .id) true),
    ("OPERATOR", combine .choice (OperatorTable.signs.map fun s => sign s (.symbol s))),
    ("PROGRAM", combine .someOf [token "COMMENT", token "CONST", token "OPERATOR", token "ID"]) ]

/-- A workshop with the grammars of the language. -/
def standard : Workshop :=
  ((entries.forM fun (n, s) => Workshop.defineToken n s).run.run {}).2

end Lexicon

end Offside
