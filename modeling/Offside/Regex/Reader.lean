import Offside.Regex.Basic
/-!
# Reading a regular expression

`Pattern.read?` turns the text of an expression into a `Regex`, together with the number of its
groups and their names in the order in which they are opened.  A text that is not well formed (an open
bracket, a repetition of nothing, an unknown escape, a name that is used twice) gives nothing.  This is what
can be read.

* Characters, `.`, sets `[..]` and `[^..]` with ranges in them, and the places `^` and `$`.
* A backslash with `d`, `D`, `s`, `S`, `w` or `W` for a set; with `A`, `Z`, `b` or `B` for a place; with `a`,
  `f`, `n`, `r`, `t` or `v` for a control character; with `x`, `u`, `U` or octal digits for a character by its
  number; with a number for the text of a group; and with anything but a letter or a digit for itself.
* Alternatives, and the repetitions `?`, `*`, `+` and `{m,n}`, each as long as possible, as short as possible
  (with `?` after it) or without second thoughts (with `+`).
* Groups with a number `(..)`, with a name `(?P<n>..)` or with neither `(?:..)`; the text of a group by its
  name `(?P=n)`; looking ahead `(?=..)` and `(?!..)`; groups without second thoughts `(?>..)`; and comments
  `(?#..)`.
* The mark `i` for the whole expression, at its start, or for a group, where it may be taken back with `-i`.

Other engines read more: looking behind, choices that depend on a group, marks other than `i`, and characters
by their names (`\N`).  Here all this gives nothing.  On the other hand there is no limit to the rounds of a
repetition and to the nesting of groups.

The reader goes through the text once.  The recursion is bounded by a fuel argument: for one character at most
three calls nest in each other, which is so for an opening bracket.
-/

namespace Offside

/-- A regular expression that has been read: what to search for, how many groups there are, and the
groups that have a name. -/
structure Pattern where
  tree : Regex
  groups : Nat
  names : List (String × Nat)
  deriving DecidableEq

namespace Pattern

/-! ## 1. The state of the reader -/

/-- What is left of the text, and what is known about the groups so far. -/
structure Draft where
  rest : List Char
  groups : Nat := 0
  /-- groups whose closing bracket has not come yet -/
  opened : List Nat := []
  names : List (String × Nat) := []
  /-- the case of letters does not count -/
  fold : Bool := false

abbrev Reading := StateT Draft Option

/-- The text is not an expression. -/
def malformed {α : Type} : Reading α := fun _ => none

def peek : Reading (Option Char) := fun d => some (d.rest.head?, d)

def next : Reading (Option Char) := fun d => some (d.rest.head?, { d with rest := d.rest.tail })

/-- Takes the character `c` if it comes next. -/
def accept (c : Char) : Reading Bool := do
  if (← peek) = some c then
    let _ ← next
    return true
  return false

/-- Takes characters as long as they fit, at most `most` of them. -/
def takeUpTo (most : Nat) (fits : Char → Bool) : Reading (List Char) := fun d =>
  let taken := (d.rest.take most).takeWhile fits
  some (taken, { d with rest := d.rest.drop taken.length })

/-- Takes all characters that fit. -/
def takeAll (fits : Char → Bool) : Reading (List Char) := fun d =>
  some (d.rest.takeWhile fits, { d with rest := d.rest.dropWhile fits })

/-- The text before the next `close`, which is taken too. -/
def takeUntil (close : Char) : Reading (List Char) := do
  let body ← takeAll (· ≠ close)
  if ← accept close then return body else malformed

/-! ## 2. Single characters -/

def isPlainDigit (c : Char) : Bool := '0' ≤ c && c ≤ '9'

def isOctalDigit (c : Char) : Bool := '0' ≤ c && c ≤ '7'

def hexValue? (c : Char) : Option Nat :=
  if isPlainDigit c then some (c.toNat - '0'.toNat)
  else if 'a' ≤ c && c ≤ 'f' then some (c.toNat - 'a'.toNat + 10)
  else if 'A' ≤ c && c ≤ 'F' then some (c.toNat - 'A'.toNat + 10)
  else none

/-- The number that digits denote in a base. -/
def inBase (base : Nat) (ds : List Char) : Nat :=
  ds.foldl (fun n c => base * n + (hexValue? c).getD 0) 0

/-- The character with a number. -/
def charAt (n : Nat) : Reading Char :=
  if n < 0x110000 then return Char.ofNat n else malformed

/-- A character given by exactly `width` hexadecimal digits. -/
def hexChar (width : Nat) : Reading Char := do
  let ds ← takeUpTo width fun c => (hexValue? c).isSome
  if ds.length = width then charAt (inBase 16 ds) else malformed

/-- A character given by octal digits, of which the first is already known. -/
def octalChar (first : Char) (most : Nat) : Reading Char := do
  let ds ← takeUpTo most isOctalDigit
  let n := inBase 8 (first :: ds)
  if n < 256 then charAt n else malformed

/-- The set that a letter after a backslash names. -/
def namedSet? : Char → Option SetItem
  | 'd' => some (.digit true)
  | 'D' => some (.digit false)
  | 's' => some (.blank true)
  | 'S' => some (.blank false)
  | 'w' => some (.word true)
  | 'W' => some (.word false)
  | _ => none

/-- The control character that a letter after a backslash names. -/
def control? : Char → Option Char
  | 'a' => some '\x07'
  | 'f' => some '\x0c'
  | 'n' => some '\n'
  | 'r' => some '\r'
  | 't' => some '\t'
  | 'v' => some '\x0b'
  | _ => none

/-- The character that a backslash and `c` stand for, outside and inside of sets alike. -/
def plainEscape (c : Char) : Reading Char :=
  match control? c with
  | some d => return d
  | none =>
    match c with
    | 'x' => hexChar 2
    | 'u' => hexChar 4
    | 'U' => hexChar 8
    | _ => if c.isAlphanum then malformed else return c

/-! ## 3. Sets -/

/-- One end of a range in a set, or a named set. -/
inductive SetEnd where
  | char (c : Char)
  | named (item : SetItem)

def SetEnd.item : SetEnd → SetItem
  | char c => .range c c
  | named i => i

/-- What a backslash stands for inside of a set. -/
def setEscape : Reading SetEnd := do
  match ← next with
  | none => malformed
  | some c =>
    match namedSet? c with
    | some i => return .named i
    | none =>
      if c = 'b' then return .char '\x08'
      else if isOctalDigit c then return .char (← octalChar c 2)
      else return .char (← plainEscape c)

def setEnd (c : Char) : Reading SetEnd :=
  if c = '\\' then setEscape else return .char c

/-- The items of a set up to the bracket that closes it.  A closing bracket in the first place is an
item. -/
def readSet : Nat → List SetItem → Reading (List SetItem)
  | 0, _ => malformed
  | fuel + 1, items => do
    match ← next with
    | none => malformed
    | some c =>
      if c = ']' && !items.isEmpty then return items
      let low ← setEnd c
      if ← accept '-' then
        match ← next with
        | none => malformed
        | some ']' => return items ++ [low.item, .range '-' '-']
        | some d =>
          match low, ← setEnd d with
          | .char a, .char b =>
            if b < a then malformed else readSet fuel (items ++ [.range a b])
          | _, _ => malformed
      else readSet fuel (items ++ [low.item])

/-! ## 4. Repetitions -/

/-- The bounds of a repetition: the least number of rounds, and the most if there is one. -/
structure Bounds where
  least : Nat
  most : Option Nat

/-- The bounds between braces, after the opening one.  If the text is no such thing, the brace stands
for itself and nothing is taken. -/
def readBraces : Reading (Option Bounds) := fun d =>
  let body : Reading (Option Bounds) := do
    if (← peek) = some '}' then return none
    let lo ← takeAll isPlainDigit
    let comma ← accept ','
    let hi ← if comma then takeAll isPlainDigit else pure lo
    if ← accept '}' then
      let least := inBase 10 lo
      let most := if hi.isEmpty then none else some (inBase 10 hi)
      if most.any (· < least) then malformed
      return some ⟨least, most⟩
    return none
  match body d with
  | some (some b, d') => some (some b, d')
  | some (none, _) => some (none, d)
  | none => none

/-- The bounds that the character `c` announces, if it announces a repetition. -/
def readBounds (c : Char) : Reading (Option Bounds) :=
  match c with
  | '?' => return some ⟨0, some 1⟩
  | '*' => return some ⟨0, none⟩
  | '+' => return some ⟨1, none⟩
  | '\x7b' => readBraces
  | _ => return none

/-- An expression, and whether it may be repeated. -/
structure Piece where
  tree : Regex
  repeatable : Bool

def Piece.plain (r : Regex) : Piece := ⟨r, true⟩

/-- Places cannot be repeated. -/
def Piece.place (r : Regex) : Piece := ⟨r, false⟩

/-- The repetition of a piece, with the mark after it: `?` for as few rounds as possible, `+` for no
second thoughts. -/
def repeatPiece (p : Piece) (b : Bounds) : Reading Piece := do
  if !p.repeatable then malformed
  else
    let extra := b.most.map (· - b.least)
    if ← accept '?' then return ⟨.rounds b.least extra false p.tree, false⟩
    else if ← accept '+' then return ⟨.once (.rounds b.least extra true p.tree), false⟩
    else return ⟨.rounds b.least extra true p.tree, false⟩

/-! ## 5. Groups and sequences -/

def single (items : List SetItem) (outside : Bool) : Reading Piece := do
  return .plain (.one ⟨outside, items, (← get).fold⟩)

def literal (c : Char) : Reading Piece := single [.range c c] false

/-- A reference to a group, which must be closed. -/
def reference (index : Nat) : Reading Piece := do
  let d ← get
  if 0 < index && index ≤ d.groups && !d.opened.contains index then
    return .plain (.again index d.fold)
  malformed

/-- A name for a group: a word that does not begin with a digit. -/
def isName (cs : List Char) : Bool :=
  match cs with
  | [] => false
  | c :: rest => Text.isWordChar c && !Text.isDigit c && rest.all Text.isWordChar

/-- What a backslash stands for outside of sets. -/
def readEscape : Reading Piece := do
  match ← next with
  | none => malformed
  | some 'A' => return .place .start
  | some 'Z' => return .place (.finish false)
  | some 'b' => return .place (.wordEdge true)
  | some 'B' => return .place (.wordEdge false)
  | some '0' => literal (← octalChar '0' 2)
  | some c =>
    match namedSet? c with
    | some i => single [i] false
    | none =>
      if isPlainDigit c then
        let rest := (← get).rest
        match rest with
        | d :: e :: _ =>
          if isOctalDigit c && isOctalDigit d && isOctalDigit e then literal (← octalChar c 2)
          else reference (inBase 10 (c :: (← takeUpTo 1 isPlainDigit)))
        | _ => reference (inBase 10 (c :: (← takeUpTo 1 isPlainDigit)))
      else literal (← plainEscape c)

/-- Opens a numbered group. -/
def openGroup (name : Option String) : Reading Nat := do
  let d ← get
  let index := d.groups + 1
  set { d with groups := index, opened := index :: d.opened,
               names := d.names ++ (name.map fun n => (n, index)).toList }
  return index

def closeGroup (index : Nat) : Reading Unit :=
  modify fun d => { d with opened := d.opened.filter (· ≠ index) }

/-- What an opening bracket opens. -/
inductive Opening where
  | numbered (name : Option String)
  | unnumbered
  | ahead (inside : Bool)
  | once
  /-- a reference to a named group, a whole by itself -/
  | whole (p : Piece)
  /-- a comment, or a mark for the whole expression -/
  | nothing
  /-- an unnumbered group in which case counts or does not -/
  | folded (fold : Bool)

/-- The name of a new group. -/
def newName : Reading String := do
  let name ← takeUntil '>'
  if isName name && !(← get).names.any (·.1 == String.ofList name) then
    return String.ofList name
  malformed

/-- The marks after a question mark, up to the end of the bracket or to a colon.  The marks for the
whole expression are allowed at its very start only. -/
def readMarks (atStart on : Bool) : Reading Opening := do
  if ← accept ')' then
    if atStart && on then
      modify fun d => { d with fold := true }
      return .nothing
    malformed
  else if ← accept ':' then return .folded on
  else malformed

/-- What follows an opening bracket. -/
def readOpening (atStart : Bool) : Reading Opening := do
  if !(← accept '?') then return .numbered none
  match ← next with
  | some ':' => return .unnumbered
  | some '=' => return .ahead true
  | some '!' => return .ahead false
  | some '>' => return .once
  | some '#' =>
    let _ ← takeUntil ')'
    return .nothing
  | some 'P' =>
    if ← accept '<' then return .numbered (some (← newName))
    else if ← accept '=' then
      let name ← takeUntil ')'
      match (← get).names.lookup (String.ofList name) with
      | some index => return .whole (← reference index)
      | none => malformed
    else malformed
  | some 'i' => readMarks atStart true
  | some '-' => if ← accept 'i' then readMarks false false else malformed
  | _ => malformed

mutual

/-- Alternatives, up to a closing bracket or the end. -/
def readAlt : Nat → (atStart : Bool) → Reading Regex
  | 0, _ => malformed
  | fuel + 1, atStart => do
    let first ← readSeq fuel atStart []
    if ← accept '|' then return .alt first (← readAlt fuel false) else return first

/-- One alternative; `done` are its pieces so far, the last one in front. -/
def readSeq : Nat → (atStart : Bool) → List Piece → Reading Regex
  | 0, _, _ => malformed
  | fuel + 1, atStart, done => do
    let go (p : Piece) := readSeq fuel atStart (p :: done)
    match ← peek with
    | none | some '|' | some ')' => return done.foldl (fun r p => .seq p.tree r) .empty
    | some c =>
      let _ ← next
      match c with
      | '\\' => go (← readEscape)
      | '.' => go (← single [.range '\n' '\n'] true)
      | '^' => go (.place .start)
      | '$' => go (.place (.finish true))
      | '[' =>
        let outside ← accept '^'
        let items ← readSet ((← get).rest.length + 1) []
        go (← single items outside)
      | '(' =>
        match ← readOpening (atStart && done.isEmpty) with
        | .nothing => readSeq fuel atStart done
        | .whole p => go p
        | .numbered name =>
          let index ← openGroup name
          let body ← readBody fuel
          closeGroup index
          go (.plain (.group index body))
        | .unnumbered => go (.plain (← readBody fuel))
        | .ahead inside => go (.plain (.ahead inside (← readBody fuel)))
        | .once => go (.plain (.once (← readBody fuel)))
        | .folded fold =>
          let before := (← get).fold
          modify fun d => { d with fold := fold }
          let body ← readBody fuel
          modify fun d => { d with fold := before }
          go (.plain body)
      | _ =>
        match ← readBounds c with
        | none => go (← literal c)
        | some b =>
          match done with
          | [] => malformed
          | p :: done' => readSeq fuel atStart ((← repeatPiece p b) :: done')

/-- The inside of a bracket, and the bracket that closes it. -/
def readBody : Nat → Reading Regex
  | 0 => malformed
  | fuel + 1 => do
    let body ← readAlt fuel false
    if ← accept ')' then return body else malformed

end

/-- Reads a whole expression. -/
def read? (text : List Char) : Option Pattern :=
  match readAlt (3 * text.length + 3) true { rest := text } with
  | some (tree, d) => if d.rest.isEmpty then some ⟨tree, d.groups, d.names⟩ else none
  | none => none

/-! ## 6. Matching -/

/-- A match at the start of a text: how long it is, and what the groups remember. -/
structure Found where
  length : Nat
  groups : List (Nat × List Char)

/-- Matches at the start of a text. -/
def matchStart? (p : Pattern) (text : List Char) : Option Found :=
  (p.tree.search (.atStart text) some).map fun s => ⟨s.read, s.groups⟩

/-- The named groups with what they remember, in the order in which they are opened. -/
def Found.named (f : Found) (p : Pattern) : List (String × Option (List Char)) :=
  p.names.map fun (n, i) => (n, f.groups.lookup i)

end Pattern

end Offside
