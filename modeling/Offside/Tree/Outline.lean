import Offside.Term.Build
/-!
# The outline of a tree

One line per node, indented by its depth: the name of an inner node, or a leaf as it is written.  An
outline that begins at depth 0 ends with an empty line.  The language calls it `pretty_print`.
-/

namespace Offside

namespace Tree

/-- One line of an outline. -/
def outlineLine (level : Int) (s : String) : String :=
  "".pushn ' ' level.toNat ++ " " ++ s ++ "\n"

/-- An outline that may break off: the text so far, and whether a term could not be written. -/
structure Outline where
  text : String
  error : Option Error := none

/-- One outline after another. -/
def Outline.append (a : Outline) (b : Unit → Outline) : Outline :=
  match a.error with
  | some _ => a
  | none => { text := a.text ++ (b ()).text, error := (b ()).error }

/-- The line at the end of an outline. -/
def outlineEnd (level : Int) : Outline := ⟨if level = 0 then "\n" else "", none⟩

mutual

/-- The outline of one member. -/
def outlineOf (level : Int) : Term → Outline
  | .node k _ kids =>
    (Outline.mk (outlineLine level k.name) none).append fun _ =>
      (outlineAll (level + 1) kids).append fun _ => outlineEnd (level + 1)
  | t =>
    match t.plain? with
    | some s => ⟨outlineLine level s, none⟩
    | none => ⟨"", some .wrongValue⟩

/-- The outlines of members in a row. -/
def outlineAll (level : Int) : List Term → Outline
  | [] => ⟨"", none⟩
  | t :: ts => (outlineOf level t).append fun _ => outlineAll level ts

end

/-- The outline of a tree. -/
def outline (level : Int) (t : Term) : Outline :=
  match t.members with
  | .ok ms => (outlineAll level ms).append fun _ => outlineEnd level
  | .error e => ⟨"", some e⟩

end Tree

end Offside
