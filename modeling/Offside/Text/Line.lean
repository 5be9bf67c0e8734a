import Offside.Text.CharClass
/-!
# Blanks, lines and the depth of a line

A text is cut into lines at every line break (a carriage return followed by a line feed is one
break), and the depth of a line is the column of its first character that is not blank (`get_indent`).  In a
line of blanks only there is no such character, and its last column is taken.
-/

namespace Offside.Text

/-- The blank characters. -/
def blanks : CharClass :=
  ⟨[(0x09, 0x0D), (0x1C, 0x20), (0x85, 0x85), (0xA0, 0xA0), (0x1680, 0x1680), (0x2000, 0x200A),
    (0x2028, 0x2029), (0x202F, 0x202F), (0x205F, 0x205F), (0x3000, 0x3000)]⟩

def isBlank (c : Char) : Bool := blanks.holds c

/-- The characters that end a line. -/
def lineBreaks : CharClass :=
  ⟨[(0x0A, 0x0D), (0x1C, 0x1E), (0x85, 0x85), (0x2028, 0x2029)]⟩

def isLineBreak (c : Char) : Bool := lineBreaks.holds c

/-- Every line break is blank. -/
theorem isBlank_of_isLineBreak {c : Char} (h : isLineBreak c = true) : isBlank c = true := by
  simp only [isLineBreak, isBlank, CharClass.holds_iff, lineBreaks, blanks, List.mem_cons,
    List.not_mem_nil, or_false] at h ⊢
  obtain ⟨r, hr, hc⟩ := h
  rcases hr with rfl | rfl | rfl | rfl
  · exact ⟨(0x09, 0x0D), by simp, by simp at hc ⊢; omega⟩
  · exact ⟨(0x1C, 0x20), by simp, by simp at hc ⊢; omega⟩
  · exact ⟨(0x85, 0x85), by simp, hc⟩
  · exact ⟨(0x2028, 0x2029), by simp, hc⟩

/-- The lines of a text, without their breaks.  A break at the very end opens no further line. -/
def lines : List Char → List (List Char)
  | [] => []
  | '\r' :: '\n' :: rest => [] :: lines rest
  | c :: rest =>
    if isLineBreak c then [] :: lines rest
    else
      match lines rest with
      | [] => [[c]]
      | l :: ls => (c :: l) :: ls

/-- A text in which every line break of the three common kinds is a line feed. -/
def unifyBreaks : List Char → List Char
  | [] => []
  | '\r' :: '\n' :: rest => '\n' :: unifyBreaks rest
  | '\r' :: rest => '\n' :: unifyBreaks rest
  | c :: rest => c :: unifyBreaks rest

/-- The column of the first character that is not blank.  On a line of blanks only, it is the column
of the last one. -/
def depth (line : List Char) : Nat :=
  let n := (line.takeWhile isBlank).length
  if n = line.length then n - 1 else n

end Offside.Text
