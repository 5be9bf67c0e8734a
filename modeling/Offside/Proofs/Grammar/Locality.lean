import Offside.Grammar.Basic
/-!
# Reading depends only on what is left

To read a text from a position on is to read the rest of the text from its start: the value is the same,
and all positions are moved by the same distance (`moved_readTo`).  This holds for values, for the places
where a grammar does not fit, and for readings that do not end.

Of a lexeme it only has to be known that it takes no more text than there is (`Lexeme.Bounded`).  How it finds
its match and what token it makes of that does not matter, as both depend on the text that is left alone.

The argument goes along the ways to combine grammars.  For each there is a lemma about any two readers
that agree up to a distance (`Moved`), so that the induction on the depth only puts them together.  Two
things make it more than bookkeeping.

* A position that a part gives back is the start of the next part, so it has to be known that it is no
  negative one.  Readings stay between their start and the end of the text (`Within`).
* The bound on the rounds of a repetition depends on the whole text and on the position, and both change.
  But it is never reached: every round that goes on takes some text, so any two bounds that are larger than
  what is left give the same answer (`readSome_eq_of_lt`).
-/

namespace Offside

/-- A lexeme takes no more text than there is. -/
def Lexeme.Bounded (l : Lexeme) : Prop := ∀ text f, l.matcher text = some f → f.length ≤ text.length

namespace Grammar

variable {L : Type}

/-! ## 1. Where readings end

One lemma for each way to combine grammars, about any reader of the parts that stays within the text.  A
lexeme does, as it takes no more than there is; this is the only place where anything is asked of lexemes. -/

/-- The position at which a reading ended, with a value or because the grammar does not fit. -/
def place? : Reading → Option Int
  | .ok (_, q) => some q
  | .error (.noMatch q) => some q
  | .error _ => none

/-- A reading from `p` on ends behind `p`, and within a text of length `n` if `p` is. -/
def Within (n : Nat) (p : Int) (r : Reading) : Prop := ∀ q, place? r = some q → p ≤ q ∧ q ≤ max p n

variable {n : Nat} {p : Int}

theorem Within.of_place {r : Reading} {q : Int} (hr : place? r = some q) (h : p ≤ q ∧ q ≤ max p n) :
    Within n p r := by
  intro q' hq'
  rw [hr] at hq'
  obtain rfl := Option.some.inj hq'
  exact h

theorem Within.here {r : Reading} (hr : place? r = some p) : Within n p r :=
  .of_place hr ⟨Int.le_refl p, Int.le_max_left _ _⟩

theorem Within.of_none {r : Reading} (hr : place? r = none) : Within n p r := by
  intro q hq
  rw [hr] at hq
  cases hq

/-- A reading that goes on where another one ended. -/
theorem Within.trans {r : Reading} {q : Int} (hq : p ≤ q ∧ q ≤ max p n) (h : Within n q r) :
    Within n p r := by
  intro q' hq'
  have := h q' hq'
  omega

/-- The reader stays within a text of length `n`. -/
def Stays (n : Nat) (sub : Reader L) : Prop := ∀ g p, 0 ≤ p → Within n p (sub g p)

section

variable {sub : Reader L} (hsub : Stays n sub)

include hsub

theorem within_readFirst (hp : 0 ≤ p) (gs : List (Grammar L)) : Within n p (readFirst sub p gs) := by
  induction gs with
  | nil => exact .here rfl
  | cons g gs ih =>
    rw [readFirst]
    split
    · exact ih
    · exact hsub g p hp

/-- A row goes on from where each of its members has ended.  If a member does not fit, the row fails where it
does. -/
theorem within_readRow (hp : 0 ≤ p) (done : List Term) (gs : List (Grammar L)) :
    Within n p (readRow sub done p gs) := by
  induction gs generalizing p done with
  | nil => exact .here rfl
  | cons g gs ih =>
    have hg := hsub g p hp
    rw [readRow]
    cases hr : sub g p with
    | error e =>
      rw [hr] at hg
      cases e <;> exact hg
    | ok r =>
      obtain ⟨v, q⟩ := r
      rw [hr] at hg
      have hq := hg q rfl
      exact .trans hq (ih (Int.le_trans hp hq.1) _)

/-- The rounds of a repetition each begin where the one before ended, so the induction is on the bound on
their number and the intervals are put together by `Within.trans`. -/
theorem within_readSome (hp : 0 ≤ p) (gs : List (Grammar L)) (most : Nat) (done : List Term) :
    Within n p (readSome sub gs most done p) := by
  induction most generalizing p done with
  | zero => exact .of_none rfl
  | succ most ih =>
    have hfirst := within_readFirst hsub hp gs
    rw [readSome]
    cases hr : readFirst sub p gs with
    | error e =>
      cases e with
      | noMatch q =>
        simp only
        split <;> exact .here rfl
      | failed => exact .of_none rfl
      | endless => exact .of_none rfl
    | ok r =>
      obtain ⟨v, q⟩ := r
      rw [hr] at hfirst
      have hq := hfirst q rfl
      simp only
      split
      · exact .of_none rfl
      · exact .trans hq (ih (Int.le_trans hp hq.1) _)

theorem within_readMaybe (hp : 0 ≤ p) (gs : List (Grammar L)) : Within n p (readMaybe sub p gs) := by
  rw [readMaybe]
  split
  · exact .here rfl
  · exact within_readRow hsub hp [] gs

end

/-- A match is no longer than the rest of the text. -/
theorem within_readLexeme {l : Lexeme} (hl : l.Bounded) (text : List Char) (hp : 0 ≤ p) :
    Within text.length p (readLexeme l text p) := by
  rw [readLexeme]
  split
  · exact .here rfl
  · rename_i f hf
    have hlength := hl _ f hf
    rw [suffixFrom, if_neg (Int.not_lt.2 hp), List.length_drop] at hlength
    split
    · exact .of_place rfl ⟨by omega, by omega⟩
    · exact .of_none rfl

section

variable [Lexical L] (hl : ∀ l : L, (Lexical.lexeme l).Bounded)

include hl

/-- **Readings stay within the text.**  Induction on the depth: each way to combine passes it from the parts
to the whole. -/
theorem stays_readTo (b : RuleBook L) (text : List Char) (depth : Nat) :
    Stays text.length (readTo b text depth) := by
  induction depth with
  | zero =>
    intro g p hp
    exact .of_none rfl
  | succ depth ih =>
    intro g p hp
    cases g with
    | lexeme l => exact within_readLexeme (hl l) text hp
    | rule i =>
      rw [readTo]
      split
      · rename_i r hr
        rw [readRule]
        cases r.way with
        | choice => exact within_readFirst ih hp _
        | someOf => exact within_readSome ih hp _ _ _
        | maybe => exact within_readMaybe ih hp _
        | row => exact within_readRow ih hp _ _
      · exact .here rfl

end

/-! ## 2. The bound on the rounds

A repetition is given a number of rounds, computed from the length of the text and the position.  To compare
two readings of texts of different lengths, it has to be known that the number does not matter. -/

/-- **The bound is never reached.**  Any two that are larger than what is left give the same answer.  A round
that does not move on ends the repetition without an answer, under any bound; every other round makes what is
left shorter, so that the bound on the rounds after it is again larger than that. -/
theorem readSome_eq_of_lt {sub : Reader L} (hsub : Stays n sub) (gs : List (Grammar L)) {m m' : Nat}
    (done : List Term) (hp : 0 ≤ p) (hm : n - p < m) (hm' : n - p < m') (hpos : 0 < m) (hpos' : 0 < m') :
    readSome sub gs m done p = readSome sub gs m' done p := by
  induction m generalizing p m' done with
  | zero => cases hpos
  | succ m ih =>
    obtain ⟨m', rfl⟩ := Nat.exists_eq_succ_of_ne_zero (Nat.ne_of_gt hpos')
    have hfirst := within_readFirst hsub hp gs
    rw [readSome, readSome]
    cases hr : readFirst sub p gs with
    | error e => cases e <;> rfl
    | ok r =>
      obtain ⟨v, q⟩ := r
      rw [hr] at hfirst
      have hq := hfirst q rfl
      simp only
      by_cases hqp : q = p
      · simp only [hqp, if_true]
      · simp only [hqp, if_false]
        exact ih _ (by omega) (by omega) (by omega) (by omega) (by omega)

/-! ## 3. Moving

Two readers are compared, one in the text and one in the text without its first `d` characters.  Positions are
integers that a grammar gives back, and nothing in their type says that they are not negative; this is known
of readings that stay within the text (section 1), and it goes into every lemma about a row. -/

/-- The same reading in a text with `d` more characters at its start. -/
def moved (d : Nat) : Reading → Reading
  | .ok (v, q) => .ok (v, q + d)
  | .error (.noMatch q) => .error (.noMatch (q + d))
  | .error e => .error e

/-- The first reader reads from `p + d` on what the second one reads from `p` on. -/
def Moved (d : Nat) (sub sub' : Reader L) : Prop := ∀ g p, 0 ≤ p → sub g (p + d) = moved d (sub' g p)

section

variable {d : Nat} {sub sub' : Reader L} (hsub : Moved d sub sub')

include hsub

/-- Alternatives are tried at the same place, moved on one side. -/
theorem Moved.readFirst (hp : 0 ≤ p) (gs : List (Grammar L)) :
    readFirst sub (p + d) gs = moved d (readFirst sub' p gs) := by
  induction gs with
  | nil => rfl
  | cons g gs ih =>
    rw [Grammar.readFirst, Grammar.readFirst, hsub g p hp]
    rcases sub' g p with e | ⟨v, q⟩
    · cases e with
      | noMatch => exact ih
      | failed => rfl
      | endless => rfl
    · rfl

variable (hstays : Stays n sub')

include hstays

/-- A row moves with its first member, and the rest of it starts at a place that is not negative either. -/
theorem Moved.readRow (hp : 0 ≤ p) (done : List Term) (gs : List (Grammar L)) :
    readRow sub done (p + d) gs = moved d (readRow sub' done p gs) := by
  induction gs generalizing p done with
  | nil => rfl
  | cons g gs ih =>
    have hg := hstays g p hp
    rw [Grammar.readRow, Grammar.readRow, hsub g p hp]
    rcases hr : sub' g p with e | ⟨v, q⟩
    · cases e <;> rfl
    · rw [hr] at hg
      exact ih (Int.le_trans hp (hg q rfl).1) _

/-- Repetition goes on as long as the place moves, and whether it does is the same on both sides. -/
theorem Moved.readSome (hp : 0 ≤ p) (gs : List (Grammar L)) (most : Nat) (done : List Term) :
    readSome sub gs most done (p + d) = moved d (readSome sub' gs most done p) := by
  induction most generalizing p done with
  | zero => rfl
  | succ most ih =>
    have hfirst := within_readFirst hstays hp gs
    rw [Grammar.readSome, Grammar.readSome, hsub.readFirst hp]
    rcases hr : Grammar.readFirst sub' p gs with e | ⟨v, q⟩
    · cases e with
      | noMatch =>
        simp only [moved]
        split <;> rfl
      | failed => rfl
      | endless => rfl
    · rw [hr] at hfirst
      simp only [moved, Int.add_left_inj]
      split
      · rfl
      · exact ih (Int.le_trans hp (hfirst q rfl).1) _

theorem Moved.readMaybe (hp : 0 ≤ p) (gs : List (Grammar L)) :
    readMaybe sub (p + d) gs = moved d (readMaybe sub' p gs) := by
  rw [Grammar.readMaybe, Grammar.readMaybe, hsub.readRow hstays hp]
  rcases Grammar.readRow sub' [] p gs with e | ⟨v, q⟩
  · cases e <;> rfl
  · rfl

end

theorem suffixFrom_add (text : List Char) (d : Nat) (hp : 0 ≤ p) :
    suffixFrom text (p + d) = suffixFrom (text.drop d) p := by
  rw [suffixFrom, suffixFrom, if_neg (by omega), if_neg (by omega), List.drop_drop]
  congr 1
  omega

/-- A lexeme sees what is left of the text from its place on, and this is the same text on both sides. -/
theorem readLexeme_add (l : Lexeme) (text : List Char) (d : Nat) (hp : 0 ≤ p) :
    readLexeme l text (p + d) = moved d (readLexeme l (text.drop d) p) := by
  rw [readLexeme, readLexeme, suffixFrom_add text d hp]
  split
  · rfl
  · split
    · simp only [moved]
      congr 2
      omega
    · rfl

/-- **Reading depends only on what is left**, to any depth.  The induction is on the depth, with one case for
each way to combine.  In a repetition the bound is computed from the text, which is shorter on one side, so
the two sides have different bounds there; by the section before that makes no difference. -/
theorem moved_readTo [Lexical L] (hl : ∀ l : L, (Lexical.lexeme l).Bounded) (b : RuleBook L)
    (text : List Char) (d depth : Nat) :
    Moved d (readTo b text depth) (readTo b (text.drop d) depth) := by
  induction depth with
  | zero =>
    intro g p hp
    rfl
  | succ depth ih =>
    have hstays := stays_readTo hl b (text.drop d) depth
    intro g p hp
    cases g with
    | lexeme l => exact readLexeme_add (Lexical.lexeme l) text d hp
    | rule i =>
      rw [readTo, readTo]
      cases b.find? i with
      | none => rfl
      | some r =>
        simp only [readRule]
        cases r.way with
        | choice => exact ih.readFirst hp _
        | row => exact ih.readRow hstays hp _ _
        | maybe => exact ih.readMaybe hstays hp _
        | someOf =>
          simp only
          rw [ih.readSome hstays hp]
          congr 1
          refine readSome_eq_of_lt hstays _ _ hp ?_ ?_ (Nat.succ_pos _) (Nat.succ_pos _)
          all_goals
            rw [List.length_drop]
            omega

/-! ## 4. Texts

For texts as they are given. `moved` adds the distance to positions and leaves all else alone, so an equation
between readings is taken apart into statements about the four ways in which a reading can end. -/

/-- The text from a position on. -/
def remaining (text : String) (pos : Nat) : String := String.ofList (text.toList.drop pos)

/-- A reading of a text is the moved reading of what is left of it.  The four statements about values,
misfits, failures and endless readings are this equation, read one outcome at a time. -/
theorem read_eq_moved [Lexical L] (hl : ∀ l : L, (Lexical.lexeme l).Bounded) (b : RuleBook L)
    (g : Grammar L) (text : String) (pos : Nat) :
    read b g text pos = moved pos (read b g (remaining text pos) 0) := by
  have h := moved_readTo hl b text.toList pos depthLimit g 0 (Int.le_refl 0)
  rw [Int.zero_add] at h
  rw [read, read, remaining, String.toList_ofList]
  exact h

section

variable {d : Nat} {r : Reading}

theorem moved_eq_ok_iff {v : Term} {q : Int} : moved d r = .ok (v, q) ↔ r = .ok (v, q - d) := by
  have hq : ∀ q' : Int, q' + d = q ↔ q' = q - d := by omega
  rcases r with (_ | _ | _) | ⟨v', q'⟩ <;> simp [moved, hq]

theorem moved_eq_noMatch_iff {q : Int} :
    moved d r = .error (.noMatch q) ↔ r = .error (.noMatch (q - d)) := by
  have hq : ∀ q' : Int, q' + d = q ↔ q' = q - d := by omega
  rcases r with (_ | _ | _) | ⟨v', q'⟩ <;> simp [moved, hq]

theorem moved_eq_failed_iff {e : Error} : moved d r = .error (.failed e) ↔ r = .error (.failed e) := by
  rcases r with (_ | _ | _) | ⟨v', q'⟩ <;> simp [moved]

theorem moved_eq_endless_iff : moved d r = .error .endless ↔ r = .error .endless := by
  rcases r with (_ | _ | _) | ⟨v', q'⟩ <;> simp [moved]

end

/-- **Reading is local**, whatever the lexemes are.  To read a text from a position on is to read what is left
of it: both give the same value, or do not fit at the same place, or fail alike, or both do not end.  From a
position in the text a reading does not leave what is left. -/
theorem read_local [Lexical L] (hl : ∀ l : L, (Lexical.lexeme l).Bounded) (b : RuleBook L) (g : Grammar L)
    (text : String) (pos : Nat) :
    (∀ v q, read b g text pos = .ok (v, q) ↔ read b g (remaining text pos) 0 = .ok (v, q - pos)) ∧
    (∀ q, read b g text pos = .error (.noMatch q) ↔
      read b g (remaining text pos) 0 = .error (.noMatch (q - pos))) ∧
    (∀ e, read b g text pos = .error (.failed e) ↔
      read b g (remaining text pos) 0 = .error (.failed e)) ∧
    (read b g text pos = .error .endless ↔ read b g (remaining text pos) 0 = .error .endless) ∧
    (pos ≤ text.length →
      (∀ v q, read b g text pos = .ok (v, q) → pos ≤ q ∧ q ≤ text.length) ∧
      (∀ q, read b g text pos = .error (.noMatch q) → pos ≤ q ∧ q ≤ text.length)) := by
  rw [read_eq_moved hl]
  refine ⟨fun v q => moved_eq_ok_iff, fun q => moved_eq_noMatch_iff, fun e => moved_eq_failed_iff,
    moved_eq_endless_iff, fun hpos => ?_⟩
  rw [← read_eq_moved hl]
  have hwithin : ∀ q, place? (read b g text pos) = some q → pos ≤ q ∧ q ≤ text.length := by
    intro q hq
    have := stays_readTo hl b text.toList depthLimit g pos (Int.natCast_nonneg pos) q hq
    rw [String.length_toList] at this
    omega
  constructor
  · intro v q h
    exact hwithin q (by rw [h]; rfl)
  · intro q h
    exact hwithin q (by rw [h]; rfl)

/-- A lexeme that is known to be bounded. -/
abbrev BoundedLexeme := { l : Lexeme // l.Bounded }

instance : Lexical BoundedLexeme := ⟨Subtype.val⟩

/-- A lexeme of one character, whose token is the character with a word for what it is. -/
def singleLexeme (fits : Char → Bool) (kind : String) : Lexeme where
  matcher
    | c :: _ => if fits c then some ⟨1, [some [c]], []⟩ else none
    | [] => none
  make text := .ok (.seq [.text kind, .text (text.getD "")])
  bare := .error .wrongKind
  keepsText := true
  shown := kind

theorem bounded_singleLexeme (fits : Char → Bool) (kind : String) : (singleLexeme fits kind).Bounded := by
  intro text f hf
  cases text with
  | nil => cases hf
  | cons c rest =>
    obtain ⟨-, hf⟩ := Option.ite_none_right_eq_some.1 hf
    obtain rfl := Option.some.inj hf
    exact Nat.succ_le_succ (Nat.zero_le _)

/-- Digits, and then a sign. -/
def sampleBook : RuleBook BoundedLexeme :=
  ⟨[⟨.someOf, [.lexeme ⟨singleLexeme Char.isDigit "digit", bounded_singleLexeme _ _⟩]⟩,
    ⟨.row, [.rule 0, .lexeme ⟨singleLexeme (· == '+') "sign", bounded_singleLexeme _ _⟩]⟩]⟩

/-- What the sample reads. -/
def sampleValue : Term :=
  .seq [.seq [.seq [.text "digit", .text "1"], .seq [.text "digit", .text "2"]], .seq [.text "sign", .text "+"]]

theorem read_local_sample :
    (∀ l : BoundedLexeme, (Lexical.lexeme l).Bounded) ∧
    read sampleBook (.rule 1) "a12+" 1 = .ok (sampleValue, 4) ∧
    read sampleBook (.rule 1) "12+" 0 = .ok (sampleValue, 3) ∧
    ((1 : Int) ≤ 4 ∧ (4 : Int) ≤ "a12+".length) := by
  have hl : ∀ l : BoundedLexeme, (Lexical.lexeme l).Bounded := fun l => l.property
  have h : read sampleBook (.rule 1) "a12+" 1 = .ok (sampleValue, 4) := by rfl
  have hlocal := read_local hl sampleBook (.rule 1) "a12+" 1
  exact ⟨hl, h, (hlocal.1 _ _).1 h, (hlocal.2.2.2.2 (by decide)).1 _ _ h⟩

end Grammar

end Offside
