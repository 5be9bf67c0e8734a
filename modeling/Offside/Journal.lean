import Offside.Error
import Offside.Text.Wildcard
/-!
# The journal

What a program does while it is read and run can be written to a journal, or log.  A line of the journal has a
path, which says who wrote it, and a text.  A filter decides by the path which lines are kept: of its
rules, patterns with an answer, the first that fits decides, and if none fits, the answer is given once
for all.
-/

namespace Offside

namespace Journal

/-- A path with its parts joined by dots. -/
def joined (path : List String) : String := ".".intercalate path

/-- Which lines are kept. -/
structure Filter where
  rules : List (String × Bool) := []
  otherwise : Bool := true

/-- The answer of a filter for a path that is written as one text. -/
def Filter.admitsText (f : Filter) (path : String) : Bool :=
  match f.rules.find? fun r => Text.wildcardMatch r.1 path with
  | some r => r.2
  | none => f.otherwise

/-- The lines with this path are kept. -/
def Filter.admits (f : Filter) (path : List String) : Bool := f.admitsText (joined path)

/-- What can be asked of a filter by name. -/
def Filter.traits : List String := ["rules", "default", "test"]

/-- Asks a filter for one of its traits. -/
def Filter.require (_ : Filter) (trait : String) : Except Error Unit :=
  if Filter.traits.contains trait then .ok ()
  else .error (.lacks (.leaf (.declared "Filter" .leaf)) trait)

/-- A line of the journal. -/
structure Entry where
  path : List String
  text : String

/-- The colour of a journal, or none. -/
inductive Style where
  | plain
  | white
  deriving DecidableEq, Repr

/-- A text in a colour. -/
def Style.paint : Style → String → String
  | plain, s => s
  | white, s => "\x1b[97m" ++ s ++ "\x1b[0m"

/-- A line as it is written. -/
def Entry.line (style : Style) (e : Entry) : String :=
  style.paint (joined e.path ++ ": " ++ e.text) ++ "\n"

/-- A whole journal. -/
def text (style : Style) (es : List Entry) : String := String.join (es.map (Entry.line style))

/-! ## Writers -/

/-- Someone who writes to a journal: a path to return to, and the path of the next line. -/
structure Writer where
  home : List String := []
  path : List String := home

namespace Writer

/-- A writer with a path. -/
def ofPath (path : List String) : Writer := { home := path }

/-- The parts of a path that is written as one text. -/
def ofText (path : String) : Writer := ofPath (path.splitOn ".")

/-- Goes one step down for the next line.  The names of what a writer consists of are no steps. -/
def descend (w : Writer) (name : String) : Writer :=
  if ["prefix", "path", "log"].contains name then w else { w with path := w.path ++ [name] }

/-- The text of a line that shows several terms, if they can be written. -/
def message? (ts : List Term) : Option String := (ts.mapM Term.plain?).map " ".intercalate

/-- Writes a line, and returns to the path at home. -/
def write (w : Writer) (f : Filter) (text : String) : Option Entry × Writer :=
  (if f.admits w.path then some ⟨w.path, text⟩ else none, { w with path := w.home })

end Writer

end Journal

end Offside
