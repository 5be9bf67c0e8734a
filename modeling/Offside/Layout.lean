import Offside.Term.Printer
/-!
# Blocks from columns

The tokens of a text say at which column each line begins.  Three steps make a tree of them.  The language
calls them `implicit_dents`, `merge_dents` and `blocks`.

1. An arrow whose body is deeper than its line, but begins on it, gets the column of the body right
   after it (`addBodyDents`).
2. Of several columns in a row only the last one counts (`collapseDents`).
3. The columns open and close blocks (`step`).  A block is a list of statements, a statement a list of
   tokens and blocks.

The third step keeps a stack of open blocks.  A column equal to that of the innermost block begins a
new statement there; a greater one opens a block inside of the statement; a smaller one closes blocks
as long as it is smaller than theirs.  A column that is smaller than that of the outermost block ends
the reading.
-/

namespace Offside

namespace Layout

/-! ## 1. Columns after arrows -/

/-- The first column in a list of tokens. -/
def nextDent? : List Term → Option Int
  | [] => none
  | .dent v :: _ => some v
  | _ :: ts => nextDent? ts

/-- The signs after which a body may begin. -/
def isArrow (sign : String) : Bool := sign = "->" || sign = "=>"

/-- Adds the column of a body that begins on the line of its arrow.  `column` is that of the line. -/
def addBodyDents (column : Int) : List Term → List Term
  | [] => []
  | .dent v :: ts => .dent v :: addBodyDents v ts
  | .symbol s :: ts =>
    match nextDent? ts with
    | some v =>
      if isArrow s && column < v then .symbol s :: .dent v :: addBodyDents v ts
      else .symbol s :: addBodyDents column ts
    | none => .symbol s :: addBodyDents column ts
  | t :: ts => t :: addBodyDents column ts

/-- Keeps the last of several columns in a row. -/
def collapseDents : List Term → List Term
  | [] => []
  | .dent _ :: .dent v :: ts => collapseDents (.dent v :: ts)
  | t :: ts => t :: collapseDents ts

/-! ## 2. Blocks -/

/-- An open block: its column, its finished statements and the tokens of the one that is being
read. -/
structure Open where
  level : Int
  finished : List (List Term) := []
  current : List Term := []

namespace Open

/-- The statements of a block. -/
def statements (o : Open) : List (List Term) := o.finished ++ [o.current]

/-- The statement that is being read. -/
def expr (o : Open) : Term := .phrase .expr o.current

/-- The block as a tree. -/
def block (o : Open) : Term := .phrase .block (o.statements.map (.phrase .expr))

/-- Adds to the statement that is being read. -/
def add (o : Open) (t : Term) : Open := { o with current := o.current ++ [t] }

/-- Begins a new statement. -/
def turn (o : Open) : Open := { o with finished := o.finished ++ [o.current], current := [] }

end Open

/-- The open blocks from the inside out, or the tree and the column at which the reading ended. -/
inductive State where
  | reading (top : Open) (outer : List Open)
  | ended (tree : Term) (level : Int)

/-- What happens while blocks are read. -/
inductive Event where
  | considering (level : Int) (t : Term)
  | newline (level : Int)
  | nested (level : Int)
  | got (level : Int) (block : Term) (column : Int)
  | newStatement (level : Int)
  | adding (level : Int) (t expr : Term)
  | leaving (level column : Int)

/-- Hands a finished block to the one around it, at a column that is smaller than its own. -/
def handOver (column : Int) : (block : Term) → List Open → State
  | block, [] => .ended block column
  | block, o :: outer =>
    if column = o.level then .reading (o.add block).turn outer
    else if column < o.level then handOver column (o.add block).block outer
    else .reading (o.add block) outer

/-- What happens on the way out. -/
def handOverEvents (column : Int) : (block : Term) → List Open → List Event
  | _, [] => []
  | block, o :: outer =>
    .got o.level block column ::
      if column = o.level then [.newStatement o.level]
      else if column < o.level then
        .leaving o.level column :: handOverEvents column (o.add block).block outer
      else []

/-- Reads one token. -/
def step : State → Term → State
  | .ended tree level, _ => .ended tree level
  | .reading o outer, .dent v =>
    if v = o.level then .reading (if o.current.isEmpty then o else o.turn) outer
    else if o.level < v then .reading { level := v } (o :: outer)
    else handOver v o.block outer
  | .reading o outer, t => .reading (o.add t) outer

/-- What happens when one token is read. -/
def stepEvents : State → Term → List Event
  | .ended _ _, _ => []
  | .reading o outer, .dent v =>
    .considering o.level (.dent v) ::
      if v = o.level then (if o.current.isEmpty then [] else [.newline o.level])
      else if o.level < v then [.nested o.level]
      else .leaving o.level v :: handOverEvents v o.block outer
  | .reading o _, t => [.considering o.level t, .adding o.level t o.expr]

/-- Closes all open blocks at the end of the tokens. -/
def close : Open → List Open → Term × Int
  | o, [] => (o.block, o.level)
  | o, p :: outer => close (p.add o.block) outer

def closeEvents : Open → List Open → List Event
  | _, [] => []
  | o, p :: outer => .got p.level o.block o.level :: closeEvents (p.add o.block) outer

/-- The tree, and the column at which the reading ended. -/
def State.result : State → Term × Int
  | .ended tree level => (tree, level)
  | .reading o outer => close o outer

/-- The blocks of a list of tokens, the outermost of which is at this column. -/
def blocks (level : Int) (ts : List Term) : Term × Int :=
  (ts.foldl step (.reading { level := level } [])).result

/-- What happens while a list of tokens is read. -/
def eventsFrom : State → List Term → List Event
  | .ended _ _, _ => []
  | .reading o outer, [] => closeEvents o outer
  | s, t :: ts => stepEvents s t ++ eventsFrom (step s t) ts

def events (level : Int) (ts : List Term) : List Event :=
  eventsFrom (.reading { level := level } []) ts

/-- The tree of a list of tokens. -/
def tree (ts : List Term) : Term :=
  (blocks 0 (collapseDents (addBodyDents 0 ts))).1

/-! ## 3. The words for what happens -/

/-- A column at the start of a message, indented by itself. -/
def margin (level : Int) : String :=
  toString level ++ "".pushn ' ' (level - 1).toNat

/-- The words for an event, if they can be written. -/
def Event.message? : Event → Option String
  | considering l t => t.plain?.map fun s => margin l ++ " considering " ++ s
  | newline l => some (margin l ++ " got newline, starting new expr")
  | nested l => some (margin l ++ " >>> calling nested block")
  | got l b c => b.plain?.map fun s =>
    margin l ++ " <<< got " ++ s ++ " from it with level " ++ toString c
  | newStatement l => some (margin l ++ " !!! starting new expression")
  | adding l t e =>
    match t.plain?, e.plain? with
    | some s, some r => some (margin l ++ " adding " ++ s ++ " to expr " ++ r)
    | _, _ => none
  | leaving l c => some (margin l ++ " <== " ++ toString c ++ " < " ++ toString l ++
      ": time to return")

end Layout

end Offside
