import Offside.Error
import Offside.Regex.Engine
/-!
# Grammars of ordered choice

A grammar reads a text from a position on and gives back a value and the position after it.  A lexeme
takes a match from the front of the text and makes a token of it; any matcher and any way to make a token
will do (`Lexeme`; `RE` in the language, and `SYMBOL` for a fixed text).  Lexemes are combined in four ways:
the first of several that fits (`OR`), any of several as often as one fits (`SOMEOF`), a row that may be
missing (`MAYBE`), a row (`ALL`).

Grammars are about lexemes of any type, as long as each is known to stand for a lexeme (`Lexical`).  The
grammars of the language are about lexemes that are written down (`RegexLexeme`): a regular expression with
blanks before it, and a kind of token.  These can be compared and shown.

The combinations are kept in a book and referred to by number, because they can be extended later, and
whoever uses a combination sees the extension.  A combination may even come to contain itself, so
reading goes to a limited depth.

A position may be negative; it then counts from the end of the text.
-/

namespace Offside

/-! ## 1. Lexemes -/

/-- A matcher, and what becomes of the text that it fits.  The text is that of the last group of the match,
if the group took part. -/
structure Lexeme where
  matcher : Matcher
  /-- the token of a text -/
  make : Option String → Except Error Term
  /-- the token that is made without regard to the text -/
  bare : Except Error Term
  keepsText : Bool
  shown : String

/-- The text of the last group of a match. -/
def Match.lastGroup (f : Match) : Option String := f.groups.getLast?.join.map String.ofList

/-- The token of a match. -/
def Lexeme.token (l : Lexeme) (f : Match) : Except Error Term :=
  if l.keepsText then l.make f.lastGroup else l.bare

/-- What stands for a lexeme. -/
class Lexical (L : Type) where
  lexeme : L → Lexeme

instance : Lexical Lexeme := ⟨id⟩

/-- The kinds of tokens that can be made of a text. -/
inductive TokenMaker where
  | text
  | number
  | word (w : Word)
  | symbol (sign : String)
  deriving DecidableEq, Repr

namespace TokenMaker

def kind : TokenMaker → Kind
  | text => .text
  | number => .number
  | word w => .word w
  | symbol s => .symbol s

/-- A token from a text, or from nothing if the group that should give the text is empty. -/
def make (m : TokenMaker) (t : Option String) : Except Error Term :=
  match m, t with
  | text, some s => .ok (.text s)
  | text, none => .ok (.text "None")
  | number, some s =>
    match Text.integer? s with
    | some n => .ok (.number n)
    | none => .error .wrongValue
  | number, none => .error .wrongKind
  | word w, some s => .ok (.word w s)
  | word w, none => .ok (.leaf (.word w) none .nothing)
  | symbol _, _ => .error .wrongKind

/-- A token without a text. -/
def bare : TokenMaker → Term
  | text => .text ""
  | number => .number 0
  | word w => .leaf (.word w) none .nothing
  | symbol s => .symbol s

end TokenMaker

/-- A lexeme that is written down: a regular expression with blanks before it, and the kind of token that is
made.  The last group of the expression, or all of it if it has none, gives the text. -/
structure RegexLexeme where
  /-- the expression stands for one fixed text -/
  isSign : Bool
  source : String
  pattern : Pattern
  maker : TokenMaker
  keepsText : Bool
  deriving DecidableEq

namespace RegexLexeme

/-- The lexeme of a regular expression. -/
def ofRegex (source : String) (m : TokenMaker) (keepsText : Bool) : Except Error RegexLexeme :=
  match Pattern.read? ("\\s*(" ++ source ++ ")").toList with
  | some p => .ok ⟨false, source, p, m, keepsText⟩
  | none => .error .badPattern

/-- The characters that mean something in a regular expression. -/
def special : List Char := "()[]\x7b\x7d?*+-|^$\\.&~# \t\n\r\x0b\x0c".toList

/-- A regular expression that fits one text only. -/
def escaped (s : String) : String :=
  String.ofList (s.toList.flatMap fun c => if special.contains c then ['\\', c] else [c])

/-- The lexeme of a fixed text. -/
def ofSign (s : String) (m : TokenMaker) : Except Error RegexLexeme :=
  (ofRegex (escaped s) m false).map fun l => { l with isSign := true }

def shown (l : RegexLexeme) : String :=
  (if l.isSign then "SYMBOL" else "RE") ++ "(\"" ++ l.source ++ "\", " ++ l.maker.kind.shown ++ ")"

/-- What it stands for. -/
def lexeme (l : RegexLexeme) : Lexeme :=
  ⟨l.pattern.matcher, l.maker.make, .ok l.maker.bare, l.keepsText, l.shown⟩

instance : Lexical RegexLexeme := ⟨lexeme⟩

end RegexLexeme

/-! ## 2. Combinations -/

/-- The ways to combine grammars. -/
inductive Combination where
  | choice
  | someOf
  | maybe
  | row
  deriving DecidableEq, Repr

def Combination.name : Combination → String
  | choice => "OR"
  | someOf => "SOMEOF"
  | maybe => "MAYBE"
  | row => "ALL"

/-- A grammar: a lexeme, or a combination in the book. -/
inductive Grammar (L : Type) where
  | lexeme (l : L)
  | rule (n : Nat)
  deriving DecidableEq

/-- A combination in the book. -/
structure Rule (L : Type) where
  way : Combination
  parts : List (Grammar L)
  deriving DecidableEq

/-- The combinations, by number. -/
structure RuleBook (L : Type) where
  rules : List (Rule L) := []

namespace RuleBook

variable {L : Type}

def find? (b : RuleBook L) (n : Nat) : Option (Rule L) := b.rules[n]?

/-- A new combination. -/
def add (b : RuleBook L) (way : Combination) (parts : List (Grammar L)) : Grammar L × RuleBook L :=
  (.rule b.rules.length, ⟨b.rules ++ [⟨way, parts⟩]⟩)

/-- Extends `g` by `h` if it is a combination of this way already, and combines the two otherwise. -/
def extend (b : RuleBook L) (way : Combination) (g h : Grammar L) : Grammar L × RuleBook L :=
  match g with
  | .rule n =>
    match b.find? n with
    | some r =>
      if r.way = way then (g, ⟨b.rules.set n { r with parts := r.parts ++ [h] }⟩)
      else b.add way [g, h]
    | none => b.add way [g, h]
  | .lexeme _ => b.add way [g, h]

/-- How a grammar is shown.  A combination inside of itself is not shown again; so the number of
combinations bounds the depth. -/
def shownFrom [Lexical L] (b : RuleBook L) : Nat → (inside : List Nat) → Grammar L → String
  | _, _, .lexeme l => (Lexical.lexeme l).shown
  | 0, _, .rule _ => ""
  | depth + 1, inside, .rule n =>
    match b.find? n with
    | none => ""
    | some r =>
      if inside.contains n then r.way.name ++ "([...])"
      else r.way.name ++ "([" ++
        ", ".intercalate (r.parts.map (b.shownFrom depth (n :: inside))) ++ "])"

def shown [Lexical L] (b : RuleBook L) (g : Grammar L) : String := b.shownFrom (b.rules.length + 1) [] g

end RuleBook

/-! ## 3. Reading -/

/-- Why reading ended without a value. -/
inductive Stop where
  /-- the grammar does not fit at this position -/
  | noMatch (pos : Int)
  | failed (e : Error)
  /-- something fits again and again without taking any text -/
  | endless

namespace Grammar

/-- A value and the position after it. -/
abbrev Reading := Except Stop (Term × Int)

/-- The part of a text from a position on. -/
def suffixFrom (text : List Char) (pos : Int) : List Char :=
  if pos < 0 then text.drop (text.length - pos.natAbs) else text.drop pos.toNat

def readLexeme (l : Lexeme) (text : List Char) (pos : Int) : Reading :=
  match l.matcher (suffixFrom text pos) with
  | none => .error (.noMatch pos)
  | some f =>
    match l.token f with
    | .ok t => .ok (t, pos + f.length)
    | .error e => .error (.failed e)

variable {L : Type}

/-- A reader of grammars from a position on. -/
abbrev Reader (L : Type) := Grammar L → Int → Reading

variable (sub : Reader L)

/-- The first of several that fits. -/
def readFirst (pos : Int) : List (Grammar L) → Reading
  | [] => .error (.noMatch pos)
  | g :: gs =>
    match sub g pos with
    | .error (.noMatch _) => readFirst pos gs
    | r => r

/-- One after the other. -/
def readRow (done : List Term) (pos : Int) : List (Grammar L) → Reading
  | [] => .ok (.seq done, pos)
  | g :: gs => do
    let (v, pos) ← sub g pos
    readRow (done ++ [v]) pos gs

/-- Any of several, as often as one fits, up to `most` times.  What fits without taking any text would
fit for ever. -/
def readSome (gs : List (Grammar L)) : (most : Nat) → (done : List Term) → (pos : Int) → Reading
  | 0, _, _ => .error .endless
  | most + 1, done, pos =>
    match readFirst sub pos gs with
    | .ok (v, next) =>
      if next = pos then .error .endless else readSome gs most (done ++ [v]) next
    | .error (.noMatch _) =>
      if done.isEmpty then .error (.noMatch pos) else .ok (.seq done, pos)
    | .error e => .error e

/-- A row that may be missing. -/
def readMaybe (pos : Int) (gs : List (Grammar L)) : Reading :=
  match readRow sub [] pos gs with
  | .error (.noMatch _) => .ok (.nothing, pos)
  | r => r

def readRule (text : List Char) (r : Rule L) (pos : Int) : Reading :=
  match r.way with
  | .choice => readFirst sub pos r.parts
  | .row => readRow sub [] pos r.parts
  | .maybe => readMaybe sub pos r.parts
  | .someOf => readSome sub r.parts (text.length + pos.natAbs + 1) [] pos

/-- Reads to a depth. -/
def readTo [Lexical L] (b : RuleBook L) (text : List Char) : Nat → Reader L
  | 0, _, _ => .error (.failed .recursion)
  | _ + 1, .lexeme l, pos => readLexeme (Lexical.lexeme l) text pos
  | depth + 1, .rule n, pos =>
    match b.find? n with
    | some r => readRule (readTo b text depth) text r pos
    | none => .error (.noMatch pos)

/-- The depth to which grammars are read.  Like the bound on evaluation it stands in for a recursion limit and
is a choice: a combination that contains itself may come to it, as may one that is nested deeper, and then
reading fails with the error `recursion`. -/
def depthLimit : Nat := 1000

/-- Reads a text from a position on. -/
def read [Lexical L] (b : RuleBook L) (g : Grammar L) (text : String) (pos : Int) : Reading :=
  readTo b text.toList depthLimit g pos

end Grammar

end Offside
