import Offside.Operator.Table
/-!
# The operators of the language

The declarations stand in the order in which the language makes them.  Four signs play both roles: `-` and `+`
stand before an operand or between two, `->` before a body or between parameters and a body, and a square
bracket encloses a list or an index.

Signs are told apart by their texts, blanks included: `p ` is a sign only with the space after it, and ` . `
only between spaces.
-/

namespace Offside

namespace OperatorTable

/-- The declarations.  Of two signs of the same length the one that is declared first is tried first when a
text is cut into tokens. -/
def declarations : List Declaration :=
  [ .before "p " 0 (.phrase .print),
    .before "assert" 0 (.phrase .check),
    .alone "_" (.word .alwaysTrue),
    .alone "return" (.word .ret),
    .before "-" 100 (.phrase .minus),
    .before "+" 100 (.phrase .plus),
    .before "match" 1 (.phrase .select),
    .before "->" 1 (.phrase .thunk),
    .after "!" 3 (.phrase .callBare),
    .right " . " 11 (.phrase .composeR),
    .left "$" 11 (.phrase .composeL),
    .left "->" 3 (.phrase .lambda),
    .left "=>" 4 (.phrase .ifThen),
    .right "=" 2 (.phrase .assign),
    .right "@" 5 (.phrase .call),
    .right "==" 10 (.phrase .eq),
    .left "=~" 10 (.phrase .regMatch),
    .left "<" 10 (.phrase .less),
    .left ">" 10 (.phrase .more),
    .left "+" 20 (.phrase .add),
    .left "-" 20 (.phrase .sub),
    .left "*" 30 (.phrase .mul),
    .right "^" 40 (.phrase .pow),
    .enclosing "(" ")" (.phrase .parens),
    .enclosing "[" "]" (.phrase .brackets),
    .index "[" (some "]") (.phrase .subscript),
    .left "," 5 (.phrase .comma),
    .choice 2 (.phrase .ifElse) ]

/-- The table of the language. -/
def standard : OperatorTable := ofDeclarations declarations

/-- The signs of the language, longest first. -/
def signs : List String :=
  ["assert", "return", "match", "else", " . ", "p ", "->", "=>", "==", "=~", "if", "_", "-", "+", "!",
    "$", "=", "@", "<", ">", "*", "^", "(", ")", "[", "]", ","]

/-- The signs are those of the table. -/
example : signs.length = standard.entries.length ∧
    ∀ s ∈ signs, (standard.find? s).isSome := by decide

/-- A longer sign comes before a shorter one. -/
example : signs.Pairwise fun a b => b.length ≤ a.length := by decide

end OperatorTable

end Offside
