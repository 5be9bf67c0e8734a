import Offside.Operator.Reader
import Offside.Operator.Standard
/-!
# Operator trees

An operator tree is an expression of the language with its structure: which sign takes which operands.
It has a *yield*, the tokens from left to right, and it denotes a term.

Not every tree is what its yield is read as: `1 + 2 * 3` is the yield of two trees.  The powers of the
signs decide, and two lists of powers say all that matters about a tree that is an operand.

* `leftSpine`: the powers, to the left, of the signs that one meets on the way down to the first token,
  as far as these signs take a left operand.
* `rightSpine`: the powers, to the right, of the signs that one meets on the way down to the last token,
  as far as these signs have their last operand at the end.

A sign with a left operand has to bind no stronger than anything on the right spine of that operand, for
otherwise the last part of the operand would have gone to the sign.  And an operand that is read with a
power must have stronger signs only on its left spine, for otherwise it would have ended earlier.  A
tree in which both hold everywhere *respects* the powers.

The last section ties the signs to the table of the language.
-/

namespace Offside

namespace Precedence

/-! ## 1. Signs by their role

The table of the language gives a sign a role before an operand, a role after one, or both.  Here each role
has a type of its own, so that a tree cannot have a sign in a place where it does not belong. -/

/-- The signs that stand before an operand. -/
inductive Opener where
  | print | check | minus | plus | select | thunk
  deriving DecidableEq, Repr

namespace Opener

def sign : Opener → String
  | print => "p "
  | check => "assert"
  | minus => "-"
  | plus => "+"
  | select => "match"
  | thunk => "->"

/-- The power with which the operand is read. -/
def power : Opener → Int
  | print | check => 0
  | select | thunk => 1
  | minus | plus => 100

def phrase : Opener → Phrase
  | print => .print
  | check => .check
  | minus => .minus
  | plus => .plus
  | select => .select
  | thunk => .thunk

end Opener

/-- The signs that stand between two operands. -/
inductive Joiner where
  | composeR | composeL | lambda | ifThen | assign | call
  | eq | regMatch | less | more | add | sub | mul | pow | comma
  deriving DecidableEq, Repr

namespace Joiner

def sign : Joiner → String
  | composeR => " . "
  | composeL => "$"
  | lambda => "->"
  | ifThen => "=>"
  | assign => "="
  | call => "@"
  | eq => "=="
  | regMatch => "=~"
  | less => "<"
  | more => ">"
  | add => "+"
  | sub => "-"
  | mul => "*"
  | pow => "^"
  | comma => ","

/-- How strongly the sign binds to its left. -/
def power : Joiner → Int
  | assign => 2
  | lambda => 3
  | ifThen => 4
  | call | comma => 5
  | eq | regMatch | less | more => 10
  | composeR | composeL => 11
  | add | sub => 20
  | mul => 30
  | pow => 40

/-- Of several such signs in a row the last one is applied first. -/
def toRight : Joiner → Bool
  | composeR | assign | call | eq | pow => true
  | _ => false

/-- The power with which the right operand is read. -/
def rightPower (o : Joiner) : Int := if o.toRight then o.power - 1 else o.power

def phrase : Joiner → Phrase
  | composeR => .composeR
  | composeL => .composeL
  | lambda => .lambda
  | ifThen => .ifThen
  | assign => .assign
  | call => .call
  | eq => .eq
  | regMatch => .regMatch
  | less => .less
  | more => .more
  | add => .add
  | sub => .sub
  | mul => .mul
  | pow => .pow
  | comma => .comma

end Joiner

/-- The signs that stand for themselves. -/
inductive Lone where
  | alwaysTrue | ret
  deriving DecidableEq, Repr

namespace Lone

def sign : Lone → String
  | alwaysTrue => "_"
  | ret => "return"

def word : Lone → Word
  | alwaysTrue => .alwaysTrue
  | ret => .ret

end Lone

/-- The pairs of brackets. -/
inductive Bracket where
  | round | square
  deriving DecidableEq, Repr

namespace Bracket

def opening : Bracket → String
  | round => "("
  | square => "["

def closing : Bracket → String
  | round => ")"
  | square => "]"

def phrase : Bracket → Phrase
  | round => .parens
  | square => .brackets

end Bracket

/-- How strongly the sign of a call without arguments binds. -/
def bareCallPower : Int := 3

/-- How strongly the sign of a choice binds. -/
def choicePower : Int := 2

/-! ## 2. Trees

The constructors are the ways in which the signs of the language take operands.  The first token of a tree and
its last one decide how it stands next to other tokens, and the spines are what can be seen from there. -/

/-- A token that is an operand by itself: a leaf or a block. -/
def isAtom : Term → Bool
  | .leaf _ _ _ => true
  | .node (.phrase .block) _ _ => true
  | _ => false

/-- Operator trees. -/
inductive OpTree where
  | atom (tok : Term) (isAtom : isAtom tok = true)
  | alone (l : Lone)
  | before (o : Opener) (arg : OpTree)
  | enclosed (b : Bracket) (inner : OpTree)
  | between (o : Joiner) (left right : OpTree)
  /-- `left !` -/
  | bareCall (left : OpTree)
  /-- `left [ inner ]` -/
  | index (left inner : OpTree)
  /-- `left if condition else other` -/
  | choice (left condition other : OpTree)

/-- The items of a term that may be a list with commas. -/
def commaItems : Term → List Term
  | .node (.phrase .comma) _ kids => kids
  | t => [t]

namespace OpTree

/-- The tokens of a tree from left to right. -/
def yield : OpTree → List Term
  | atom tok _ => [tok]
  | alone l => [.symbol l.sign]
  | before o arg => .symbol o.sign :: arg.yield
  | enclosed b inner => .symbol b.opening :: (inner.yield ++ [.symbol b.closing])
  | between o left right => left.yield ++ .symbol o.sign :: right.yield
  | bareCall left => left.yield ++ [.symbol "!"]
  | index left inner => left.yield ++ .symbol "[" :: (inner.yield ++ [.symbol "]"])
  | choice left condition other =>
    left.yield ++ .symbol "if" :: (condition.yield ++ .symbol "else" :: other.yield)

/-- The term that a tree denotes.  Commas that nest on the left are one list. -/
def term : OpTree → Term
  | atom tok _ => tok
  | alone l => .word l.word l.sign
  | before o arg => .phrase o.phrase [arg.term]
  | enclosed b inner => .phrase b.phrase [inner.term]
  | between .comma left right => .phrase .comma (commaItems left.term ++ [right.term])
  | between o left right => .phrase o.phrase [left.term, right.term]
  | bareCall left => .phrase .callBare [left.term]
  | index left inner => .phrase .subscript [left.term, inner.term]
  | choice left condition other => .phrase .ifElse [condition.term, left.term, other.term]

theorem term_between {o : Joiner} (ho : o ≠ .comma) (left right : OpTree) :
    (between o left right).term = .phrase o.phrase [left.term, right.term] := by
  cases o with
  | comma => exact absurd rfl ho
  | _ => rfl

/-- The powers of the signs with a left operand, on the way to the first token. -/
def leftSpine : OpTree → List Int
  | between o left _ => o.power :: left.leftSpine
  | bareCall left => bareCallPower :: left.leftSpine
  | index left _ => OperatorTable.indexPower :: left.leftSpine
  | choice left _ _ => choicePower :: left.leftSpine
  | _ => []

/-- The powers with which last operands were read, on the way to the last token. -/
def rightSpine : OpTree → List Int
  | before o arg => o.power :: arg.rightSpine
  | between o _ right => o.rightPower :: right.rightSpine
  | choice _ _ other => 0 :: other.rightSpine
  | _ => []

/-- The tree can be read with this power: its signs bind stronger. -/
def Above (p : Int) (e : OpTree) : Prop := ∀ q ∈ e.leftSpine, p < q

/-- A sign of this power can take the whole tree as its left operand. -/
def Yields (p : Int) (e : OpTree) : Prop := ∀ q ∈ e.rightSpine, p ≤ q

instance (p : Int) (e : OpTree) : Decidable (Above p e) := inferInstanceAs (Decidable (∀ q ∈ _, _))

instance (p : Int) (e : OpTree) : Decidable (Yields p e) := inferInstanceAs (Decidable (∀ q ∈ _, _))

/-- The tree respects the powers of its signs: every left operand yields to its sign, every operand that is
read with a power is above it, and this holds in all operands.  What stands between brackets is read with
power 0, which asks for nothing (`OpTree.above_zero`). -/
def Respects : OpTree → Prop
  | atom _ _ => True
  | alone _ => True
  | before o arg => arg.Above o.power ∧ arg.Respects
  | enclosed _ inner => inner.Above 0 ∧ inner.Respects
  | between o left right =>
    left.Yields o.power ∧ right.Above o.rightPower ∧ left.Respects ∧ right.Respects
  | bareCall left => left.Yields bareCallPower ∧ left.Respects
  | index left inner =>
    left.Yields OperatorTable.indexPower ∧ inner.Above 0 ∧ left.Respects ∧ inner.Respects
  | choice left condition other =>
    left.Yields choicePower ∧ condition.Above 0 ∧ other.Above 0 ∧
      left.Respects ∧ condition.Respects ∧ other.Respects

instance decidableRespects : (e : OpTree) → Decidable e.Respects
  | atom _ _ => isTrue trivial
  | alone _ => isTrue trivial
  | before _ arg =>
    have := decidableRespects arg
    inferInstanceAs (Decidable (_ ∧ _))
  | enclosed _ inner =>
    have := decidableRespects inner
    inferInstanceAs (Decidable (_ ∧ _))
  | between _ left right =>
    have := decidableRespects left
    have := decidableRespects right
    inferInstanceAs (Decidable (_ ∧ _ ∧ _ ∧ _))
  | bareCall left =>
    have := decidableRespects left
    inferInstanceAs (Decidable (_ ∧ _))
  | index left inner =>
    have := decidableRespects left
    have := decidableRespects inner
    inferInstanceAs (Decidable (_ ∧ _ ∧ _ ∧ _))
  | choice left condition other =>
    have := decidableRespects left
    have := decidableRespects condition
    have := decidableRespects other
    inferInstanceAs (Decidable (_ ∧ _ ∧ _ ∧ _ ∧ _ ∧ _))

end OpTree

/-! ## 3. The signs in the table of the language

The table is looked up by texts.  These lemmas say that the types of signs are all of it: every role in the
table is the role of one of these signs (`opening_cases`, `joining_cases`). -/

open OperatorTable (standard)

theorem opening_opener (o : Opener) :
    (standard.find? o.sign).bind (·.opening) = some (.before o.power (.phrase o.phrase)) := by
  cases o <;> rfl

theorem opening_lone (l : Lone) :
    (standard.find? l.sign).bind (·.opening) = some (.alone (.word l.word)) := by
  cases l <;> rfl

theorem opening_bracket (b : Bracket) :
    (standard.find? b.opening).bind (·.opening) =
      some (.enclosing b.closing (.phrase b.phrase)) := by
  cases b <;> rfl

/-- The role of a sign between two operands. -/
def Joiner.joining (o : Joiner) : Joining :=
  if o.toRight then .right (.phrase o.phrase) else .left (.phrase o.phrase)

theorem find_joiner (o : Joiner) :
    ∃ r, standard.find? o.sign = some ⟨o.power, r, some o.joining⟩ := by
  cases o <;> exact ⟨_, rfl⟩

theorem find_bareCall :
    standard.find? "!" = some ⟨bareCallPower, none, some (.after (.phrase .callBare))⟩ := rfl

theorem find_index :
    ∃ r, standard.find? "[" =
      some ⟨OperatorTable.indexPower, r, some (.index (some "]") (.phrase .subscript))⟩ :=
  ⟨_, rfl⟩

theorem find_choice :
    standard.find? "if" = some ⟨choicePower, none, some (.choice (.phrase .ifElse))⟩ := rfl

/-- The signs that can stand at the start of an expression. -/
theorem opening_cases {s : String} {r : Opening}
    (h : (standard.find? s).bind (·.opening) = some r) :
    (∃ o : Opener, s = o.sign ∧ r = .before o.power (.phrase o.phrase)) ∨
    (∃ l : Lone, s = l.sign ∧ r = .alone (.word l.word)) ∨
    (∃ b : Bracket, s = b.opening ∧ r = .enclosing b.closing (.phrase b.phrase)) := by
  obtain ⟨o, ho, hr⟩ := Option.bind_eq_some_iff.1 h
  obtain ⟨l₁, l₂, hl, -⟩ := List.lookup_eq_some_iff.1 ho
  have hmem : (some s, r) ∈ standard.entries.filterMap fun e => e.2.opening.map (e.1, ·) :=
    List.mem_filterMap.2 ⟨(some s, o), hl ▸ List.mem_append_right _ List.mem_cons_self, by rw [hr]; rfl⟩
  have hall : standard.entries.filterMap (fun e => e.2.opening.map (e.1, ·)) =
      [(some "p ", .before 0 (.phrase .print)), (some "assert", .before 0 (.phrase .check)),
        (some "_", .alone (.word .alwaysTrue)), (some "return", .alone (.word .ret)),
        (some "-", .before 100 (.phrase .minus)), (some "+", .before 100 (.phrase .plus)),
        (some "match", .before 1 (.phrase .select)), (some "->", .before 1 (.phrase .thunk)),
        (some "(", .enclosing ")" (.phrase .parens)), (some "[", .enclosing "]" (.phrase .brackets))] :=
    rfl
  rw [hall] at hmem
  simp only [List.mem_cons, Prod.mk.injEq, Option.some.injEq, List.not_mem_nil, or_false] at hmem
  rcases hmem with ⟨rfl, rfl⟩ | ⟨rfl, rfl⟩ | ⟨rfl, rfl⟩ | ⟨rfl, rfl⟩ | ⟨rfl, rfl⟩ | ⟨rfl, rfl⟩ |
    ⟨rfl, rfl⟩ | ⟨rfl, rfl⟩ | ⟨rfl, rfl⟩ | ⟨rfl, rfl⟩
  · exact .inl ⟨.print, rfl, rfl⟩
  · exact .inl ⟨.check, rfl, rfl⟩
  · exact .inr (.inl ⟨.alwaysTrue, rfl, rfl⟩)
  · exact .inr (.inl ⟨.ret, rfl, rfl⟩)
  · exact .inl ⟨.minus, rfl, rfl⟩
  · exact .inl ⟨.plus, rfl, rfl⟩
  · exact .inl ⟨.select, rfl, rfl⟩
  · exact .inl ⟨.thunk, rfl, rfl⟩
  · exact .inr (.inr ⟨.round, rfl, rfl⟩)
  · exact .inr (.inr ⟨.square, rfl, rfl⟩)

/-- The signs that can stand after an operand. -/
theorem joining_cases {s : String} {p : Int} {op : Option Opening} {r : Joining}
    (h : standard.find? s = some ⟨p, op, some r⟩) :
    (∃ o : Joiner, s = o.sign ∧ p = o.power ∧ r = o.joining) ∨
    (s = "!" ∧ p = bareCallPower ∧ r = .after (.phrase .callBare)) ∨
    (s = "[" ∧ p = OperatorTable.indexPower ∧ r = .index (some "]") (.phrase .subscript)) ∨
    (s = "if" ∧ p = choicePower ∧ r = .choice (.phrase .ifElse)) := by
  obtain ⟨l₁, l₂, hl, -⟩ := List.lookup_eq_some_iff.1 h
  have hmem : (some s, p, r) ∈
      standard.entries.filterMap fun e => e.2.joining.map (e.1, e.2.power, ·) :=
    List.mem_filterMap.2 ⟨_, hl ▸ List.mem_append_right _ List.mem_cons_self, rfl⟩
  have hall : standard.entries.filterMap (fun e => e.2.joining.map (e.1, e.2.power, ·)) =
      [(some "-", 20, .left (.phrase .sub)), (some "+", 20, .left (.phrase .add)),
        (some "->", 3, .left (.phrase .lambda)), (some "!", 3, .after (.phrase .callBare)),
        (some " . ", 11, .right (.phrase .composeR)), (some "$", 11, .left (.phrase .composeL)),
        (some "=>", 4, .left (.phrase .ifThen)), (some "=", 2, .right (.phrase .assign)),
        (some "@", 5, .right (.phrase .call)), (some "==", 10, .right (.phrase .eq)),
        (some "=~", 10, .left (.phrase .regMatch)), (some "<", 10, .left (.phrase .less)),
        (some ">", 10, .left (.phrase .more)), (some "*", 30, .left (.phrase .mul)),
        (some "^", 40, .right (.phrase .pow)), (some "[", 1000, .index (some "]") (.phrase .subscript)),
        (some ",", 5, .left (.phrase .comma)), (some "if", 2, .choice (.phrase .ifElse))] := rfl
  rw [hall] at hmem
  simp only [List.mem_cons, Prod.mk.injEq, Option.some.injEq, List.not_mem_nil, or_false] at hmem
  rcases hmem with ⟨rfl, rfl, rfl⟩ | ⟨rfl, rfl, rfl⟩ | ⟨rfl, rfl, rfl⟩ | ⟨rfl, rfl, rfl⟩ |
    ⟨rfl, rfl, rfl⟩ | ⟨rfl, rfl, rfl⟩ | ⟨rfl, rfl, rfl⟩ | ⟨rfl, rfl, rfl⟩ | ⟨rfl, rfl, rfl⟩ |
    ⟨rfl, rfl, rfl⟩ | ⟨rfl, rfl, rfl⟩ | ⟨rfl, rfl, rfl⟩ | ⟨rfl, rfl, rfl⟩ | ⟨rfl, rfl, rfl⟩ |
    ⟨rfl, rfl, rfl⟩ | ⟨rfl, rfl, rfl⟩ | ⟨rfl, rfl, rfl⟩ | ⟨rfl, rfl, rfl⟩
  · exact .inl ⟨.sub, rfl, rfl, rfl⟩
  · exact .inl ⟨.add, rfl, rfl, rfl⟩
  · exact .inl ⟨.lambda, rfl, rfl, rfl⟩
  · exact .inr (.inl ⟨rfl, rfl, rfl⟩)
  · exact .inl ⟨.composeR, rfl, rfl, rfl⟩
  · exact .inl ⟨.composeL, rfl, rfl, rfl⟩
  · exact .inl ⟨.ifThen, rfl, rfl, rfl⟩
  · exact .inl ⟨.assign, rfl, rfl, rfl⟩
  · exact .inl ⟨.call, rfl, rfl, rfl⟩
  · exact .inl ⟨.eq, rfl, rfl, rfl⟩
  · exact .inl ⟨.regMatch, rfl, rfl, rfl⟩
  · exact .inl ⟨.less, rfl, rfl, rfl⟩
  · exact .inl ⟨.more, rfl, rfl, rfl⟩
  · exact .inl ⟨.mul, rfl, rfl, rfl⟩
  · exact .inl ⟨.pow, rfl, rfl, rfl⟩
  · exact .inr (.inr (.inl ⟨rfl, rfl, rfl⟩))
  · exact .inl ⟨.comma, rfl, rfl, rfl⟩
  · exact .inr (.inr (.inr ⟨rfl, rfl, rfl⟩))

/-! ## 4. What the signs make

The table says of each sign what it makes of its operands, and making can fail if their number is wrong.  Here
it never does.  The term of a comma is not simply made of the two operands, as commas that nest on the left
become one list. -/

theorem make_opener (o : Opener) (arg : Term) :
    (Maker.phrase o.phrase).make [arg] = .ok (.phrase o.phrase [arg]) := by
  cases o <;> rfl

theorem make_bracket (b : Bracket) (arg : Term) :
    (Maker.phrase b.phrase).make [arg] = .ok (.phrase b.phrase [arg]) := by
  cases b <;> rfl

theorem make_lone (l : Lone) : (Maker.word l.word).make [.text l.sign] = .ok (.word l.word l.sign) := by
  cases l <;> rfl

namespace OpTree

/-- A comma takes in the list on its left, if there is one. -/
theorem commaKids_term (e : OpTree) (t : Term) : commaKids e.term t = commaItems e.term ++ [t] := by
  cases e with
  | atom tok h =>
    cases tok with
    | leaf => rfl
    | node k _ _ =>
      cases k with
      | phrase p => cases p <;> rfl
      | action => cases h
      | declared => cases h
    | _ => cases h
  | alone l => rfl
  | before o arg => cases o <;> rfl
  | enclosed b inner => cases b <;> rfl
  | between o left right => cases o <;> rfl
  | bareCall left => rfl
  | index left inner => rfl
  | choice left condition other => rfl

/-- What a sign makes of two operands.  Only a comma looks into its left one. -/
theorem make_between (o : Joiner) (left right : OpTree) :
    (Maker.phrase o.phrase).make [left.term, right.term] = .ok (between o left right).term := by
  cases o
  case comma =>
    show NodeKind.plainBuild (.phrase .comma) (commaKids left.term right.term) =
      .ok (.phrase .comma (commaItems left.term ++ [right.term]))
    rw [commaKids_term]
    rfl
  all_goals rfl

end OpTree

end Precedence

end Offside
