import Offside.Term.Basic
import Offside.Text.Decimal
import Offside.Text.Quoted
/-!
# How terms are written

There are two ways to write a term, and they differ in two cases only.  `Term.shown` writes a text in
quotes; `Term.plain` writes it as it is, and writes a name more briefly.  Inside of a tree the plain
way is used, inside of a list the other one.

A number that is too long to be written has no text, and neither has a term that contains one.
-/

namespace Offside

namespace Kind

/-- A list of kinds between square brackets. -/
def shownList (ks : List Kind) : String :=
  "[" ++ ", ".intercalate (ks.map shown) ++ "]"

end Kind

def SigArgs.shown : SigArgs → String
  | none => "None"
  | one k => k.shown
  | many ks => Kind.shownList ks

namespace Fields

/-- The names of the children, as shown in messages. -/
def shown : Fields → String
  | many => "None"
  | fs => "[" ++ ", ".intercalate (fs.names.map Text.quoted) ++ "]"

end Fields

namespace Term

def ofBool (b : Bool) : String := if b then "True" else "False"

/-- Pairs the children of a node with the names of their fields. -/
def labelled : List String → List String → List String
  | n :: ns, s :: ss => (n ++ "=" ++ s) :: labelled ns ss
  | _, _ => []

mutual

/-- Writes a term, the plain way or the other. -/
def write? (plainly : Bool) : Term → Option String
  | nothing => some "None"
  | flag b => some (ofBool b)
  | number n => Text.decimal? n
  | text s => some (if plainly then s else Text.quoted s)
  | seq items => (writeAll? false items).map fun ss => "[" ++ ", ".intercalate ss ++ "]"
  | arm b r => (write? false r).map fun s => "(" ++ ofBool b ++ ", " ++ s ++ ")"
  | dent n => (Text.decimal? n).map ("DENT:" ++ ·)
  | symbol s => some ("Sym('" ++ s ++ "')")
  | kind k => some k.shown
  | signature _ args ret => some ("(" ++ args.shown ++ ") -> " ++ ret.name)
  | leaf k _ payload => (write? true payload).map fun s =>
    match plainly, k with
    | true, .word .var | true, .declared _ .var => k.name ++ "(\"" ++ s ++ "\")"
    | true, .datum .var => s
    | _, _ => k.name ++ "(" ++ s ++ ")"
  | node k _ kids => (writeAll? true kids).map fun ss =>
    let inner := match k.labels with
      | [] => ss
      | names => labelled names ss
    k.heading ++ "(" ++ ", ".intercalate inner ++ ")"

/-- Writes the members of a list. -/
def writeAll? (plainly : Bool) : List Term → Option (List String)
  | [] => some []
  | t :: ts =>
    match write? plainly t, writeAll? plainly ts with
    | some s, some ss => some (s :: ss)
    | _, _ => Option.none

end

/-- Writes a term with texts in quotes. -/
def shown? (t : Term) : Option String := write? false t

/-- Writes a term with a text as it is. -/
def plain? (t : Term) : Option String := write? true t

end Term

end Offside
