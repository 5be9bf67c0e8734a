import Offside.Proofs.Grammar.Locality
import Offside.Proofs.Regex.Width
/-!
# Repetitions that end

A grammar of the way `someOf` tries its parts again and again, and nothing in it asks for progress: a part that
fits without taking any text would fit for ever.  So whether such a grammar ends depends on its parts.  Here it
is decided by their shape: a lexeme takes some text if its regular expression has a width, and a choice does
so if all of its parts do (`takes`).  A repetition of such parts ends on every text (`read_someOf`), and that
of the tokens of the language is one (`Lexicon.program_ends`).

What a repetition does is said by `Rounds`, which knows no bound on the number of rounds: in each round the
first part that fits is taken, and the last position is one where none fits.
-/

namespace Offside

/-! ## 1. Grammars that take text

Whether a grammar takes text is a question about its shape, to a depth, and it is decided by evaluating
`takes`.  A regular expression takes at least its width; a choice between grammars that take text takes what
one of them takes.  The rules are looked up in a book, so there is no structural recursion; the depth is that
of the shape and has nothing to do with the text. -/

/-- The token can be made of every text, and of none. -/
def TokenMaker.isTotal : TokenMaker → Bool
  | text | word _ => true
  | number | symbol _ => false

theorem TokenMaker.exists_make_eq {m : TokenMaker} (h : m.isTotal = true) (t : Option String) :
    ∃ v, m.make t = .ok v := by
  cases m with
  | text => cases t <;> exact ⟨_, rfl⟩
  | word w => cases t <;> exact ⟨_, rfl⟩
  | number => cases h
  | symbol s => cases h

namespace RegexLexeme

/-- A match takes some text, and then there is a token. -/
def takesText (l : RegexLexeme) : Bool :=
  decide (0 < l.pattern.tree.width) && (!l.keepsText || l.maker.isTotal)

theorem bounded (l : RegexLexeme) : l.lexeme.Bounded := by
  intro text f hf
  obtain ⟨found, hfound, rfl⟩ := Option.map_eq_some_iff.1 hf
  exact Pattern.matchStart?_length_le hfound

theorem width_le_length {l : RegexLexeme} {text : List Char} {f : Match}
    (hf : l.lexeme.matcher text = some f) : l.pattern.tree.width ≤ f.length := by
  obtain ⟨found, hfound, rfl⟩ := Option.map_eq_some_iff.1 hf
  exact Pattern.width_le_length hfound

theorem exists_token {l : RegexLexeme} (h : l.takesText = true) (f : Match) :
    ∃ v, l.lexeme.token f = .ok v := by
  show ∃ v, (if l.keepsText then l.maker.make f.lastGroup else .ok l.maker.bare) = Except.ok v
  rw [takesText, Bool.and_eq_true] at h
  cases hk : l.keepsText with
  | true => exact TokenMaker.exists_make_eq (by simpa [hk] using h.2) _
  | false => exact ⟨_, rfl⟩

end RegexLexeme

namespace Grammar

variable {L : Type}

/-- The grammar is a lexeme that takes some text, or a choice between such grammars, to a depth. -/
def takes (b : RuleBook RegexLexeme) : Nat → Grammar RegexLexeme → Bool
  | 0, _ => false
  | _ + 1, .lexeme l => l.takesText
  | depth + 1, .rule n => (b.find? n).any fun r => r.way = .choice && r.parts.all (takes b depth)

/-- The grammar does not fit at a position. -/
abbrev Misses (sub : Reader L) (p : Int) (g : Grammar L) : Prop := sub g p = .error (.noMatch p)

/-- From every position on, the grammar takes some of the `n` characters of a text, or does not fit. -/
def Advances (n : Nat) (sub : Reader L) (g : Grammar L) : Prop :=
  ∀ p, 0 ≤ p → Misses sub p g ∨ ∃ v q, sub g p = .ok (v, q) ∧ p < q ∧ q ≤ n

/-- A lexeme that takes text moves on.  Its expression has a least width, which is more than nothing, and a
match is at least as long. -/
theorem advances_lexeme {l : RegexLexeme} (h : l.takesText = true) (text : List Char) {p : Int}
    (hp : 0 ≤ p) :
    readLexeme l.lexeme text p = .error (.noMatch p) ∨
      ∃ v q, readLexeme l.lexeme text p = .ok (v, q) ∧ p < q ∧ q ≤ text.length := by
  cases hm : l.lexeme.matcher (suffixFrom text p) with
  | none => exact .inl (by rw [readLexeme, hm])
  | some f =>
    obtain ⟨v, hv⟩ := RegexLexeme.exists_token h f
    rw [RegexLexeme.takesText, Bool.and_eq_true, decide_eq_true_eq] at h
    have hwidth := RegexLexeme.width_le_length hm
    have hlength := l.bounded _ f hm
    rw [suffixFrom, if_neg (Int.not_lt.2 hp), List.length_drop] at hlength
    refine .inr ⟨v, p + f.length, ?_, by omega, by omega⟩
    rw [readLexeme, hm]
    simp only [hv]

section

variable {n : Nat} {sub : Reader L} {gs : List (Grammar L)} {p : Int}

/-- The value is that of the first grammar that fits. -/
inductive Picks (sub : Reader L) (p : Int) (v : Term) (q : Int) : List (Grammar L) → Prop where
  | here {g : Grammar L} {gs : List (Grammar L)} (h : sub g p = .ok (v, q)) : Picks sub p v q (g :: gs)
  | later {g : Grammar L} {gs : List (Grammar L)} (hmiss : Misses sub p g) (h : Picks sub p v q gs) :
      Picks sub p v q (g :: gs)

/-- A choice between grammars that advance. -/
theorem readFirst_cases (hgs : ∀ g ∈ gs, Advances n sub g) (hp : 0 ≤ p) :
    (readFirst sub p gs = .error (.noMatch p) ∧ ∀ g ∈ gs, Misses sub p g) ∨
      ∃ v q, readFirst sub p gs = .ok (v, q) ∧ Picks sub p v q gs ∧ p < q ∧ q ≤ n := by
  induction gs with
  | nil => exact .inl ⟨rfl, List.forall_mem_nil _⟩
  | cons g gs ih =>
    obtain ⟨hg, hgs⟩ := List.forall_mem_cons.1 hgs
    rcases hg p hp with hmiss | ⟨v, q, hok, hpq, hqn⟩
    · have hrest : readFirst sub p (g :: gs) = readFirst sub p gs := by rw [readFirst, hmiss]
      rw [hrest]
      rcases ih hgs with ⟨hnone, hall⟩ | ⟨v, q, hok, hpick, hq⟩
      · exact .inl ⟨hnone, List.forall_mem_cons.2 ⟨hmiss, hall⟩⟩
      · exact .inr ⟨v, q, hok, .later hmiss hpick, hq⟩
    · refine .inr ⟨v, q, ?_, .here hok, hpq, hqn⟩
      rw [readFirst, hok]

end

/-- A rule that takes text is a choice of grammars that do, one level down. -/
theorem exists_choice_of_takes {b : RuleBook RegexLexeme} {d n : Nat} (h : takes b (d + 1) (.rule n) = true) :
    ∃ parts, b.find? n = some ⟨.choice, parts⟩ ∧ ∀ g ∈ parts, takes b d g = true := by
  rw [takes] at h
  cases hr : b.find? n with
  | none =>
    rw [hr] at h
    cases h
  | some r =>
    rw [hr, Option.any_some, Bool.and_eq_true, decide_eq_true_eq, List.all_eq_true] at h
    obtain ⟨way, parts⟩ := r
    obtain ⟨rfl, hparts⟩ := h
    exact ⟨parts, rfl, hparts⟩

/-- **Grammars of this shape take text.**  The induction is on the depth of the shape.  A lexeme with a width
takes at least that much; a choice takes what the first part that fits takes. -/
theorem advances_of_takes {b : RuleBook RegexLexeme} {d : Nat} {g : Grammar RegexLexeme}
    (h : takes b d g = true) (text : List Char) {depth : Nat} (hdepth : d ≤ depth) :
    Advances text.length (readTo b text depth) g := by
  induction d generalizing g depth with
  | zero => cases h
  | succ d ih =>
    obtain ⟨depth, rfl⟩ : ∃ k, depth = k + 1 := ⟨depth - 1, by omega⟩
    intro p hp
    cases g with
    | lexeme l => exact advances_lexeme h text hp
    | rule n =>
      obtain ⟨parts, hrule, hparts⟩ := exists_choice_of_takes h
      have hread : readTo b text (depth + 1) (.rule n) p = readFirst (readTo b text depth) p parts := by
        rw [readTo, hrule]
        rfl
      have hall : ∀ g ∈ parts, Advances text.length (readTo b text depth) g :=
        fun g hg => ih (hparts g hg) (Nat.le_of_succ_le_succ hdepth)
      rw [Misses, hread]
      rcases readFirst_cases hall hp with ⟨hnone, -⟩ | ⟨v, q, hok, -, hq⟩
      · exact .inl hnone
      · exact .inr ⟨v, q, hok, hq⟩

theorem readFirst_congr {sub sub' : Reader L} {gs : List (Grammar L)} (h : ∀ g ∈ gs, sub g = sub' g) (p : Int) :
    readFirst sub p gs = readFirst sub' p gs := by
  induction gs with
  | nil => rfl
  | cons g gs ih =>
    obtain ⟨hg, hgs⟩ := List.forall_mem_cons.1 h
    rw [readFirst, readFirst, hg, ih hgs]

theorem readSome_congr {sub sub' : Reader L} {gs : List (Grammar L)} (h : ∀ g ∈ gs, sub g = sub' g) (most : Nat)
    (done : List Term) (p : Int) : readSome sub gs most done p = readSome sub' gs most done p := by
  induction most generalizing done p with
  | zero => rfl
  | succ most ih => simp only [readSome, readFirst_congr h, ih]

/-- Grammars of this shape are not deep.  So the depth to which they are read does not matter if it is enough
for the shape, and the parts of a repetition may be read to a depth of one less than the repetition itself. -/
theorem readTo_eq_of_takes {b : RuleBook RegexLexeme} {d : Nat} {g : Grammar RegexLexeme}
    (h : takes b d g = true) (text : List Char) {depth depth' : Nat} (hdepth : d ≤ depth) (hdepth' : d ≤ depth') :
    readTo b text depth g = readTo b text depth' g := by
  induction d generalizing g depth depth' with
  | zero => cases h
  | succ d ih =>
    obtain ⟨depth, rfl⟩ : ∃ k, depth = k + 1 := ⟨depth - 1, by omega⟩
    obtain ⟨depth', rfl⟩ : ∃ k, depth' = k + 1 := ⟨depth' - 1, by omega⟩
    funext p
    cases g with
    | lexeme l => rfl
    | rule n =>
      obtain ⟨parts, hrule, hparts⟩ := exists_choice_of_takes h
      rw [readTo, readTo, hrule]
      exact readFirst_congr (fun g hg =>
        ih (hparts g hg) (Nat.le_of_succ_le_succ hdepth) (Nat.le_of_succ_le_succ hdepth')) p

/-! ## 2. Repetitions

`Rounds` describes a repetition without a bound: in each round the first part that fits is taken, until none
does.  As every round moves on by one character at least, there are no more rounds than characters, and the
bound that the reader has is larger. -/

/-- What a repetition reads from a position on, round by round: values and the position after them.  It stops
where no grammar fits. -/
inductive Rounds (sub : Reader L) (gs : List (Grammar L)) : (p : Int) → List Term → (q : Int) → Prop where
  | stop {p : Int} (h : ∀ g ∈ gs, Misses sub p g) : Rounds sub gs p [] p
  | round {p q r : Int} {v : Term} {vs : List Term} (hfirst : Picks sub p v q gs)
      (hrest : Rounds sub gs q vs r) : Rounds sub gs p (v :: vs) r

/-- The reading of a repetition with these values, after which the position is `q`. -/
def outcome (vs : List Term) (q : Int) : Reading :=
  if vs.isEmpty then .error (.noMatch q) else .ok (.seq vs, q)

theorem eq_seq_of_outcome {vs : List Term} {v : Term} {p q : Int} (h : outcome vs q = .ok (v, p)) :
    v = .seq vs ∧ q = p := by
  unfold outcome at h
  split at h
  · cases h
  · cases h
    exact ⟨rfl, rfl⟩

theorem outcome_inj {vs vs' : List Term} {q q' : Int} : outcome vs q = outcome vs' q' ↔ vs = vs' ∧ q = q' := by
  cases vs <;> cases vs' <;> simp [outcome]

theorem exists_eq_ok {r : Reading} {q : Int} (h : r.toOption.map (·.2) = some q) : ∃ v, r = .ok (v, q) := by
  rcases r with e | ⟨v, q'⟩
  · cases h
  · cases h
    exact ⟨v, rfl⟩

section

variable {n : Nat} {sub : Reader L} {gs : List (Grammar L)} {p q : Int} {vs : List Term}

/-- Whichever alternative is picked, the place moves on and stays inside of the text. -/
theorem Picks.lt (hgs : ∀ g ∈ gs, Advances n sub g) (hp : 0 ≤ p) {v : Term} (h : Picks sub p v q gs) :
    p < q ∧ q ≤ n := by
  induction h with
  | here h =>
    rcases (List.forall_mem_cons.1 hgs).1 p hp with hmiss | ⟨v', q', hok, hq⟩
    · cases hmiss.symm.trans h
    · cases hok.symm.trans h
      exact hq
  | later _ _ ih => exact ih (List.forall_mem_cons.1 hgs).2

/-- There are at most as many rounds as characters, since each of them moves on by one or more. -/
theorem Rounds.length_le (hgs : ∀ g ∈ gs, Advances n sub g) (hp : 0 ≤ p) (h : Rounds sub gs p vs q) :
    p + vs.length ≤ q ∧ q ≤ max p n := by
  induction h with
  | stop =>
    rw [List.length_nil]
    omega
  | round hfirst _ ih =>
    have hq := hfirst.lt hgs hp
    have := ih (by omega)
    rw [List.length_cons]
    omega

theorem Rounds.misses (h : Rounds sub gs p vs q) : ∀ g ∈ gs, Misses sub q g := by
  induction h with
  | stop h => exact h
  | round _ _ ih => exact ih

/-- **A repetition of grammars that advance ends**, whatever bound it is given that is larger than the text.
The induction is on the bound.  If no part fits, that was the last round.  If one does, it has taken a
character, and what is left is again shorter than the bound on the rounds after it. -/
theorem exists_rounds (hgs : ∀ g ∈ gs, Advances n sub g) (hp : 0 ≤ p) {most : Nat} (hmost : n - p < most)
    (hpos : 0 < most) (done : List Term) :
    ∃ vs q, Rounds sub gs p vs q ∧ readSome sub gs most done p = outcome (done ++ vs) q := by
  induction most generalizing p done with
  | zero => cases hpos
  | succ most ih =>
    rw [readSome]
    rcases readFirst_cases hgs hp with ⟨hnone, hall⟩ | ⟨v, q, hok, hpick, hpq, hqn⟩
    · refine ⟨[], p, .stop hall, ?_⟩
      rw [hnone, outcome, List.append_nil]
    · obtain ⟨vs, r, hrounds, hrest⟩ := ih (p := q) (by omega) (by omega) (by omega) (done ++ [v])
      refine ⟨v :: vs, r, .round hpick hrounds, ?_⟩
      rw [hok]
      simp only [if_neg (Int.ne_of_gt hpq), hrest, List.append_assoc, List.singleton_append]

end

/-- **A repetition of grammars that take text ends on every text.** -/
theorem read_someOf {b : RuleBook RegexLexeme} {n d : Nat} {parts : List (Grammar RegexLexeme)}
    (hrule : b.find? n = some ⟨.someOf, parts⟩) (hparts : ∀ g ∈ parts, takes b d g = true)
    (hd : d < depthLimit) (text : String) :
    ∃ vs q, Rounds (fun g p => read b g text p) parts 0 vs q ∧ read b (.rule n) text 0 = outcome vs q := by
  have hgs : ∀ g ∈ parts, Advances text.toList.length (readTo b text.toList depthLimit) g :=
    fun g hg => advances_of_takes (hparts g hg) _ (Nat.le_of_lt hd)
  have hmost : (text.toList.length : Int) - 0 < (text.toList.length + (0 : Int).natAbs + 1 : Nat) := by omega
  obtain ⟨vs, q, hrounds, hsome⟩ := exists_rounds hgs (Int.le_refl 0) hmost (Nat.succ_pos _) []
  refine ⟨vs, q, hrounds, ?_⟩
  obtain ⟨k, hk⟩ : ∃ k, depthLimit = k + 1 := ⟨999, rfl⟩
  have hread : read b (.rule n) text 0 = readSome (readTo b text.toList k) parts
      (text.toList.length + (0 : Int).natAbs + 1) [] 0 := by
    rw [read, hk, readTo, hrule]
    rfl
  have hcongr : ∀ g ∈ parts, readTo b text.toList k g = readTo b text.toList depthLimit g :=
    fun g hg => readTo_eq_of_takes (hparts g hg) _ (by omega) (Nat.le_of_lt hd)
  rw [hread, readSome_congr hcongr, hsome, List.nil_append]

end Grammar

end Offside
