/-!
# Classes of characters

A class is a list of closed ranges of code points.  The classes that the language needs (blanks,
decimal digits, word characters, characters that a quoted text shows as they are) are tables of
this form, one module each.
-/

namespace Offside.Text

/-- A set of characters, as closed ranges of code points. -/
structure CharClass where
  ranges : List (Nat × Nat)

namespace CharClass

/-- The character lies in one of the ranges. -/
def holds (k : CharClass) (c : Char) : Bool :=
  k.ranges.any fun r => r.1 ≤ c.toNat && c.toNat ≤ r.2

theorem holds_iff {k : CharClass} {c : Char} :
    k.holds c = true ↔ ∃ r ∈ k.ranges, r.1 ≤ c.toNat ∧ c.toNat ≤ r.2 := by
  simp [holds, List.any_eq_true]

end CharClass

end Offside.Text
