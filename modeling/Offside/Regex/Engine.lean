import Offside.Error
import Offside.Regex.Reader
/-!
# Engines for regular expressions

A program matches texts against regular expressions, and a grammar takes its tokens by them.  Neither
depends on how an engine finds a match, only on what it answers: whether the text of an expression can be
read, whether there is a match at the start of a text, how long it is, and what the groups hold.  So an
engine is given from outside, and `Engine.Sound` says what is expected of it.

`Engine.standard` is one such engine, to try programs out with.  It reads expressions with `Pattern.read?`,
which knows a part of the usual syntax, and searches with `Regex.search`.  What it cannot read it refuses as
malformed.  What is proved of matches in a program holds for every engine, or for every sound one.
-/

namespace Offside

/-- A match at the start of a text. -/
structure Match where
  length : Nat
  /-- what the groups hold, in order; a group that took no part holds nothing -/
  groups : List (Option (List Char))
  /-- the groups that have a name, with what they hold -/
  named : List (String × Option (List Char))

/-- Looks for a match at the start of a text. -/
abbrev Matcher := List Char → Option Match

/-- Why an expression cannot be used. -/
inductive Refusal where
  /-- the text is no expression -/
  | malformed
  /-- the number of rounds of a repetition is too large -/
  | tooLarge
  /-- the expression is nested too deeply -/
  | tooDeep
  /-- marks for the whole expression that exclude each other -/
  | conflicting
  deriving DecidableEq, Repr

/-- The error that the use of such an expression ends with. -/
def Refusal.error : Refusal → Error
  | malformed => .badPattern
  | tooLarge => .overflow
  | tooDeep => .recursion
  | conflicting => .wrongValue

/-- An engine makes matchers from the texts of expressions. -/
structure Engine where
  compile : String → Except Refusal Matcher

/-- A match of a text takes no more than there is, and what its groups hold is part of the text.  No two
groups have the same name. -/
structure Match.Fits (f : Match) (text : List Char) : Prop where
  length_le : f.length ≤ text.length
  names_nodup : (f.named.map (·.1)).Nodup
  isInfix : ∀ {g : String} {cs : List Char}, (g, some cs) ∈ f.named → cs <:+: text

/-- All that the matcher finds fits. -/
def Matcher.Sound (m : Matcher) : Prop := ∀ text f, m text = some f → f.Fits text

/-- All that the engine finds fits. -/
def Engine.Sound (e : Engine) : Prop := ∀ p m, e.compile p = .ok m → m.Sound

namespace Pattern

/-- What a search for this expression has found, as a match.  Groups are numbered from 1. -/
def Found.toMatch (f : Found) (p : Pattern) : Match :=
  ⟨f.length, (List.range p.groups).map fun i => f.groups.lookup (i + 1), f.named p⟩

/-- The matches of an expression that has been read. -/
def matcher (p : Pattern) : Matcher := fun text => (p.matchStart? text).map (·.toMatch p)

end Pattern

/-- The engine of a host that is given no other: expressions are read by `Pattern.read?`. -/
def Engine.standard : Engine where
  compile s :=
    match Pattern.read? s.toList with
    | some p => .ok p.matcher
    | none => .error .malformed

end Offside
