/-!
# Texts with placeholders

A placeholder is a name between braces; the name is made of letters and dots.  To fill in a text, its
placeholders are taken in order, and every place where one stands is replaced by its value.  At the
end a backslash with `n` or `t` becomes a line feed or a tab.
-/

namespace Offside.Text

/-- A letter or a dot. -/
def inPlaceholder (c : Char) : Bool := c.isAlpha || c = '.'

/-- The placeholders of a text in order, with repetitions.  The number says how many characters still
belong to the placeholder found last. -/
def placeholdersFrom : Nat → List Char → List (List Char)
  | _, [] => []
  | n + 1, _ :: cs => placeholdersFrom n cs
  | 0, c :: cs =>
    let name := cs.takeWhile inPlaceholder
    if c = '\x7b' && !name.isEmpty && (cs.drop name.length).head? = some '\x7d' then
      name :: placeholdersFrom (name.length + 1) cs
    else placeholdersFrom 0 cs

def placeholders (cs : List Char) : List (List Char) := placeholdersFrom 0 cs

/-- Replaces every place of a text where `old` stands, from left to right.  The number says how many
characters still belong to the place found last. -/
def replaceFrom (old new : List Char) : Nat → List Char → List Char
  | _, [] => []
  | n + 1, _ :: cs => replaceFrom old new n cs
  | 0, c :: cs =>
    if old.isPrefixOf (c :: cs) then new ++ replaceFrom old new (old.length - 1) cs
    else c :: replaceFrom old new 0 cs

def replaceAll (old new cs : List Char) : List Char := replaceFrom old new 0 cs

/-- Puts a value in every place of a placeholder. -/
def fill (name value cs : List Char) : List Char :=
  replaceAll ('\x7b' :: name ++ ['\x7d']) value cs

/-- Line feeds and tabs for the two escapes. -/
def unescape (cs : List Char) : List Char :=
  replaceAll ['\\', 't'] ['\t'] (replaceAll ['\\', 'n'] ['\n'] cs)

end Offside.Text
