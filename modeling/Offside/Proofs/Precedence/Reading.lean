import Offside.Proofs.Precedence.Tree
import Offside.Proofs.Sequencing
/-!
# What the reader of expressions accepts

The reader accepts a list of tokens exactly if it is the yield of an operator tree that respects the
powers of its signs, and then it gives the term of that tree (`read_eq_ok_iff_yield`).

* *Completeness* follows the tree.  Reading the yield of a tree up to its last token leaves the reader
  where the tree is the left operand of whatever comes next (`Reaches`), and how many signs it has then
  let take a left operand is the length of the left spine.  That settles the depth which is left.
* *Soundness* follows the reader.  What is read with a power is a tree that respects the powers, and
  reading stops at what follows not only with that power but with all those on the right spine
  (`SoundReader`), for each of the readings that are still open at that place has stopped there.

Different trees have different yields if they respect the powers: the reader gives both the same term,
and a tree is known from its term and its yield (`OpTree.known`).
-/

namespace Offside

namespace Precedence

open OperatorTable (standard ExprReader)

/-! ## 1. Where reading stops

A reading with a power goes on as long as signs bind stronger.  Several readings may be open at a place, one
for each sign whose last operand is being read, and they all have to stop there. -/

/-- Reading with this power goes no further: the next sign binds no stronger. -/
def Stops (p : Int) : List Term → Prop
  | [] => True
  | tok :: _ => ∃ q, standard.power tok = .ok q ∧ q ≤ p

theorem Stops.mono {p q : Int} {ts : List Term} (h : Stops p ts) (hpq : p ≤ q) : Stops q ts := by
  cases ts with
  | nil => trivial
  | cons tok ts =>
    obtain ⟨r, hr, hle⟩ := h
    exact ⟨r, hr, Int.le_trans hle hpq⟩

theorem power_symbol {s : String} {o : Operator} (h : standard.find? s = some o) :
    standard.power (.symbol s) = .ok o.power := by
  simp only [OperatorTable.power, h]

theorem power_joiner (o : Joiner) : standard.power (.symbol o.sign) = .ok o.power := by
  obtain ⟨r, hr⟩ := find_joiner o
  exact power_symbol hr

theorem power_bareCall : standard.power (.symbol "!") = .ok bareCallPower := power_symbol find_bareCall

theorem power_index : standard.power (.symbol "[") = .ok OperatorTable.indexPower := by
  obtain ⟨r, hr⟩ := find_index
  exact power_symbol hr

theorem power_choice : standard.power (.symbol "if") = .ok choicePower := power_symbol find_choice

/-- Every reading stops at a closing bracket. -/
theorem stops_closing (b : Bracket) {p : Int} (hp : 0 ≤ p) (ts : List Term) :
    Stops p (.symbol b.closing :: ts) := by
  cases b <;> exact ⟨0, rfl, hp⟩

theorem stops_else {p : Int} (hp : 0 ≤ p) (ts : List Term) : Stops p (.symbol "else" :: ts) :=
  ⟨0, rfl, hp⟩

theorem Opener.power_nonneg (o : Opener) : 0 ≤ o.power := by cases o <;> decide

theorem Joiner.power_pos (o : Joiner) : 0 < o.power := by cases o <;> decide

theorem Joiner.rightPower_nonneg (o : Joiner) : 0 ≤ o.rightPower := by cases o <;> decide

namespace OpTree

/-- No reading inside of a tree has a power below zero. -/
theorem rightSpine_nonneg (e : OpTree) : ∀ q ∈ e.rightSpine, 0 ≤ q := by
  induction e with
  | before o arg ih =>
    intro q hq
    rcases List.mem_cons.1 hq with rfl | hq
    · exact o.power_nonneg
    · exact ih q hq
  | between o left right _ ih =>
    intro q hq
    rcases List.mem_cons.1 hq with rfl | hq
    · exact o.rightPower_nonneg
    · exact ih q hq
  | choice left condition other _ _ ih =>
    intro q hq
    rcases List.mem_cons.1 hq with rfl | hq
    · exact Int.le_refl 0
    · exact ih q hq
  | _ => intro q hq; cases hq

/-- Every sign with a left operand binds stronger than zero, so a whole tree can be read with that
power. -/
theorem above_zero (e : OpTree) : e.Above 0 := by
  induction e with
  | between o left right ih _ =>
    intro q hq
    rcases List.mem_cons.1 hq with rfl | hq
    · exact o.power_pos
    · exact ih q hq
  | bareCall left ih =>
    intro q hq
    rcases List.mem_cons.1 hq with rfl | hq
    · decide
    · exact ih q hq
  | index left inner ih _ =>
    intro q hq
    rcases List.mem_cons.1 hq with rfl | hq
    · decide
    · exact ih q hq
  | choice left condition other ih _ _ =>
    intro q hq
    rcases List.mem_cons.1 hq with rfl | hq
    · decide
    · exact ih q hq
  | _ => intro q hq; cases hq

/-- A tree has more tokens than signs with a left operand on its left spine.  So the depth that these cost is
below the number of tokens, which is what the reader is given. -/
theorem length_leftSpine_lt (e : OpTree) : e.leftSpine.length < e.yield.length := by
  induction e with
  | between o left right ih _ => simp only [leftSpine, yield, List.length_cons, List.length_append]; omega
  | bareCall left ih => simp only [leftSpine, yield, List.length_cons, List.length_append]; omega
  | index left inner ih _ => simp only [leftSpine, yield, List.length_cons, List.length_append]; omega
  | choice left condition other ih _ _ =>
    simp only [leftSpine, yield, List.length_cons, List.length_append]; omega
  | _ => simp [leftSpine, yield]

end OpTree

/-! ## 2. Single steps of the reader

One equation for each thing that `expr`, its loop, `nud` and `led` do.  The rest of this file does not unfold
the reader. -/

theorem expr_cons (n : Nat) (p : Int) (tok : Term) (ts : List Term) :
    standard.expr (n + 1) p (tok :: ts) =
      standard.start (standard.expr n) tok ts >>= fun x => standard.extend n p x.1 x.2 := rfl

/-- Reading ends where the next sign binds no stronger. -/
theorem extend_stops {n : Nat} {p : Int} {ts : List Term} (left : Term) (hp : 0 ≤ p)
    (h : Stops p ts) : standard.extend (n + 1) p left ts = .ok (left, ts) := by
  cases ts with
  | nil => simp only [OperatorTable.extend, if_neg (Int.not_lt.2 hp)]
  | cons tok ts =>
    obtain ⟨q, hq, hle⟩ := h
    simp only [OperatorTable.extend, hq, bind, Except.bind, if_neg (Int.not_lt.2 hle)]
    rfl

/-- Reading goes on at a sign that binds stronger. -/
theorem extend_joins {n : Nat} {p q : Int} {tok left left' : Term} {ts rest : List Term}
    (hq : standard.power tok = .ok q) (hpq : p < q)
    (h : standard.join (standard.expr n) tok left ts = .ok (left', rest)) :
    standard.extend (n + 1) p left (tok :: ts) = standard.extend n p left' rest := by
  simp only [OperatorTable.extend, hq, bind, Except.bind, if_pos hpq, h]

theorem expect_symbol {s : String} (h : s.isEmpty = false) (ts : List Term) :
    OperatorTable.expect s (.symbol s :: ts) = .ok ts := by
  simp only [OperatorTable.expect, h, Bool.false_eq_true, if_false, if_true]

section Steps

variable {f : ExprReader} {ts rest : List Term}

/-- An operand by itself is taken as it is. -/
theorem start_atom {tok : Term} (h : isAtom tok = true) : standard.start f tok ts = .ok (tok, ts) := by
  cases tok with
  | leaf => rfl
  | node k _ _ =>
    cases k with
    | phrase p => cases p <;> first | rfl | cases h
    | action => cases h
    | declared => cases h
  | _ => cases h

theorem start_lone (l : Lone) : standard.start f (.symbol l.sign) ts = .ok (.word l.word l.sign, ts) := by
  simp only [OperatorTable.start, opening_lone, OperatorTable.readOpening, make_lone, bind, Except.bind]
  rfl

theorem start_opener (o : Opener) {arg : Term} (h : f o.power ts = .ok (arg, rest)) :
    standard.start f (.symbol o.sign) ts = .ok (.phrase o.phrase [arg], rest) := by
  simp only [OperatorTable.start, opening_opener, OperatorTable.readOpening, h, make_opener, bind,
    Except.bind]
  rfl

theorem start_bracket (b : Bracket) {arg : Term}
    (h : f 0 ts = .ok (arg, .symbol b.closing :: rest)) :
    standard.start f (.symbol b.opening) ts = .ok (.phrase b.phrase [arg], rest) := by
  have hc : OperatorTable.expect b.closing (.symbol b.closing :: rest) = .ok rest :=
    expect_symbol (by cases b <;> rfl) rest
  simp only [OperatorTable.start, opening_bracket, OperatorTable.readOpening, h, hc, make_bracket, bind,
    Except.bind]
  rfl

/-- A sign between two operands.  Whether it binds to the right shows in the power with which the right
operand is read, which is then lower by one. -/
theorem join_joiner (o : Joiner) (left right : OpTree) (h : f o.rightPower ts = .ok (right.term, rest)) :
    standard.join f (.symbol o.sign) left.term ts = .ok ((OpTree.between o left right).term, rest) := by
  obtain ⟨r, hr⟩ := find_joiner o
  simp only [OperatorTable.join, hr, Joiner.joining]
  cases ho : o.toRight
  · have hp : o.rightPower = o.power := by simp [Joiner.rightPower, ho]
    rw [hp] at h
    simp only [Bool.false_eq_true, if_false, OperatorTable.readJoining, h, OpTree.make_between, bind,
      Except.bind]
    rfl
  · have hp : o.rightPower = o.power - 1 := by simp [Joiner.rightPower, ho]
    rw [hp] at h
    simp only [if_true, OperatorTable.readJoining, h, OpTree.make_between, bind, Except.bind]
    rfl

theorem join_bareCall (left : Term) :
    standard.join f (.symbol "!") left ts = .ok (.phrase .callBare [left], ts) := by
  simp only [OperatorTable.join, find_bareCall, OperatorTable.readJoining, bind, Except.bind]
  rfl

theorem join_index (left : Term) {inner : Term} (h : f 0 ts = .ok (inner, .symbol "]" :: rest)) :
    standard.join f (.symbol "[") left ts = .ok (.phrase .subscript [left, inner], rest) := by
  obtain ⟨r, hr⟩ := find_index
  simp only [OperatorTable.join, hr, OperatorTable.readJoining, h, bind, Except.bind]
  rfl

theorem join_choice (left : Term) {condition other : Term} {mid : List Term}
    (h : f 0 ts = .ok (condition, .symbol "else" :: mid)) (h' : f 0 mid = .ok (other, rest)) :
    standard.join f (.symbol "if") left ts = .ok (.phrase .ifElse [condition, left, other], rest) := by
  have hc : OperatorTable.expect "else" (.symbol "else" :: mid) = .ok mid := expect_symbol rfl mid
  simp only [OperatorTable.join, find_choice, OperatorTable.readJoining, h, hc, h', bind, Except.bind]
  rfl

end Steps

/-! ## 3. Completeness

The reader takes depth for every operand and for every sign with a left operand, so a statement about reading
a tree has to say how much is left.  It is the depth at the start less the length of the left spine: each sign
on the spine was joined by one round of the loop.  For each constructor of trees there is a lemma; those with
a left operand have one step in common (`Reaches.join`). -/

namespace OpTree

/-- Reading the yield of the tree with enough depth leads to where the tree is the left operand of what
follows.  Each sign on the left spine has cost one level of depth. -/
def Reaches (e : OpTree) : Prop :=
  ∀ (n : Nat) (p : Int) (rest : List Term), e.yield.length ≤ n → e.Above p →
    (∀ q ∈ e.rightSpine, Stops q rest) →
    standard.expr (n + 1) p (e.yield ++ rest) =
      standard.extend (n - e.leftSpine.length) p e.term rest

/-- A tree that is followed by a weaker sign is read as a whole. -/
theorem Reaches.operand {e : OpTree} (h : e.Reaches) {n : Nat} {p : Int} {rest : List Term}
    (hn : e.yield.length < n) (hp : 0 ≤ p) (ha : e.Above p) (hs : Stops p rest)
    (hr : ∀ q ∈ e.rightSpine, Stops q rest) :
    standard.expr n p (e.yield ++ rest) = .ok (e.term, rest) := by
  obtain ⟨m, rfl⟩ : ∃ m, n = m + 1 := ⟨n - 1, by omega⟩
  have hlt := e.length_leftSpine_lt
  obtain ⟨k, hk⟩ : ∃ k, m - e.leftSpine.length = k + 1 := ⟨m - e.leftSpine.length - 1, by omega⟩
  rw [h _ _ _ (by omega) ha hr, hk]
  exact extend_stops _ hp hs

/-- Inside of brackets, and before `else`, every tree is read as a whole. -/
theorem Reaches.inner {e : OpTree} (h : e.Reaches) {n : Nat} {rest : List Term}
    (hn : e.yield.length < n) (hs : ∀ p, 0 ≤ p → Stops p rest) :
    standard.expr n 0 (e.yield ++ rest) = .ok (e.term, rest) :=
  h.operand hn (Int.le_refl 0) e.above_zero (hs 0 (Int.le_refl 0))
    fun q hq => hs q (e.rightSpine_nonneg q hq)

theorem reaches_atom (tok : Term) (h : isAtom tok = true) : (atom tok h).Reaches := by
  intro n p rest _ _ _
  show standard.expr (n + 1) p (tok :: rest) = _
  rw [expr_cons, start_atom h]
  rfl

theorem reaches_alone (l : Lone) : (alone l).Reaches := by
  intro n p rest _ _ _
  show standard.expr (n + 1) p (.symbol l.sign :: rest) = _
  rw [expr_cons, start_lone]
  rfl

/-- A sign before an operand.  The operand is read with the power of the sign and is above it; what follows
stops both. -/
theorem reaches_before (o : Opener) {arg : OpTree} (ih : arg.Reaches) (ha : arg.Above o.power) :
    (before o arg).Reaches := by
  intro n p rest hn _ hr
  simp only [yield, List.length_cons] at hn
  have harg : standard.expr n o.power (arg.yield ++ rest) = .ok (arg.term, rest) :=
    ih.operand hn o.power_nonneg ha (hr _ List.mem_cons_self)
      fun q hq => hr q (List.mem_cons_of_mem _ hq)
  show standard.expr (n + 1) p (.symbol o.sign :: (arg.yield ++ rest)) = _
  rw [expr_cons, start_opener o harg]
  rfl

/-- Brackets.  What is inside is read with power 0, up to the closing sign, which has no power to go on. -/
theorem reaches_enclosed (b : Bracket) {inner : OpTree} (ih : inner.Reaches) :
    (enclosed b inner).Reaches := by
  intro n p rest hn _ _
  simp only [yield, List.length_cons, List.length_append] at hn
  have hinner : standard.expr n 0 (inner.yield ++ .symbol b.closing :: rest) =
      .ok (inner.term, .symbol b.closing :: rest) :=
    ih.inner (by omega) fun q hq => stops_closing b hq rest
  show standard.expr (n + 1) p (.symbol b.opening :: ((inner.yield ++ [.symbol b.closing]) ++ rest)) = _
  rw [List.append_assoc, List.singleton_append, expr_cons, start_bracket b hinner]
  rfl

/-- The step all signs with a left operand have in common: the left operand is reached, and then the sign
joins it to what follows.  The readings that are open at the end of the operand stop before the sign, since
the operand yields to it, and the one that goes on is the one that the operand was read with. -/
theorem Reaches.join {left : OpTree} (ih : left.Reaches) {tok left' : Term} {n : Nat} {p q : Int}
    {ts rest : List Term} (hq : standard.power tok = .ok q) (hy : left.Yields q) (hpq : p < q)
    (ha : left.Above p) (hn : left.yield.length + 1 ≤ n)
    (h : standard.join (standard.expr (n - (left.leftSpine.length + 1))) tok left.term ts =
      .ok (left', rest)) :
    standard.expr (n + 1) p (left.yield ++ tok :: ts) =
      standard.extend (n - (left.leftSpine.length + 1)) p left' rest := by
  have hlt := left.length_leftSpine_lt
  have hs : ∀ r ∈ left.rightSpine, Stops r (tok :: ts) := fun r hr => ⟨q, hq, hy r hr⟩
  have hk : n - left.leftSpine.length = n - (left.leftSpine.length + 1) + 1 := by omega
  rw [ih _ _ _ (by omega) ha hs, hk]
  exact extend_joins hq hpq h

/-- A sign between two operands.  The right operand is read with its own power, and stops where the whole tree
does; the depth has gone down by one more level for the sign. -/
theorem reaches_between (o : Joiner) {left right : OpTree} (ihl : left.Reaches) (ihr : right.Reaches)
    (hy : left.Yields o.power) (ha : right.Above o.rightPower) : (between o left right).Reaches := by
  intro n p rest hn hp hr
  have hlt := left.length_leftSpine_lt
  simp only [yield, List.length_append, List.length_cons] at hn
  have hright : standard.expr (n - (left.leftSpine.length + 1)) o.rightPower (right.yield ++ rest) =
      .ok (right.term, rest) :=
    ihr.operand (by omega) o.rightPower_nonneg ha (hr _ List.mem_cons_self)
      fun q hq => hr q (List.mem_cons_of_mem _ hq)
  simp only [yield, List.append_assoc, List.cons_append]
  exact ihl.join (power_joiner o) hy (hp _ List.mem_cons_self)
    (fun q hq => hp q (List.mem_cons_of_mem _ hq)) (by omega) (join_joiner o left right hright)

theorem reaches_bareCall {left : OpTree} (ih : left.Reaches) (hy : left.Yields bareCallPower) :
    (bareCall left).Reaches := by
  intro n p rest hn hp _
  simp only [yield, List.length_append, List.length_cons, List.length_nil] at hn
  simp only [yield, List.append_assoc, List.singleton_append]
  exact ih.join power_bareCall hy (hp _ List.mem_cons_self)
    (fun q hq => hp q (List.mem_cons_of_mem _ hq)) hn (join_bareCall left.term)

/-- An index after a left operand.  The left one yields to the bracket, so it has been read as a whole when
the bracket comes. -/
theorem reaches_index {left inner : OpTree} (ihl : left.Reaches) (ihi : inner.Reaches)
    (hy : left.Yields OperatorTable.indexPower) : (index left inner).Reaches := by
  intro n p rest hn hp _
  have hlt := left.length_leftSpine_lt
  simp only [yield, List.length_append, List.length_cons, List.length_nil] at hn
  have hinner : standard.expr (n - (left.leftSpine.length + 1)) 0
      (inner.yield ++ .symbol "]" :: rest) = .ok (inner.term, .symbol "]" :: rest) :=
    ihi.inner (by omega) fun q hq => stops_closing .square hq rest
  simp only [yield, List.append_assoc, List.cons_append, List.nil_append]
  exact ihl.join power_index hy (hp _ List.mem_cons_self)
    (fun q hq => hp q (List.mem_cons_of_mem _ hq)) (by omega) (join_index left.term hinner)

/-- A choice: the left operand yields to the sign, the condition is read up to `else`, and the other
alternative as far as what follows allows. -/
theorem reaches_choice {left condition other : OpTree} (ihl : left.Reaches) (ihc : condition.Reaches)
    (iho : other.Reaches) (hy : left.Yields choicePower) : (choice left condition other).Reaches := by
  intro n p rest hn hp hr
  have hlt := left.length_leftSpine_lt
  simp only [yield, List.length_append, List.length_cons] at hn
  have hother : standard.expr (n - (left.leftSpine.length + 1)) 0 (other.yield ++ rest) =
      .ok (other.term, rest) :=
    iho.operand (by omega) (Int.le_refl 0) other.above_zero (hr _ List.mem_cons_self)
      fun q hq => hr q (List.mem_cons_of_mem _ hq)
  have hcondition : standard.expr (n - (left.leftSpine.length + 1)) 0
      (condition.yield ++ .symbol "else" :: (other.yield ++ rest)) =
      .ok (condition.term, .symbol "else" :: (other.yield ++ rest)) :=
    ihc.inner (by omega) fun q hq => stops_else hq _
  simp only [yield, List.append_assoc, List.cons_append]
  exact ihl.join power_choice hy (hp _ List.mem_cons_self)
    (fun q hq => hp q (List.mem_cons_of_mem _ hq)) (by omega)
    (join_choice left.term hcondition hother)

/-- A tree that respects the powers is reached.  One lemma for each constructor; `Respects` has what each of
them asks for. -/
theorem reaches_of_respects : ∀ e : OpTree, e.Respects → e.Reaches
  | atom tok h, _ => reaches_atom tok h
  | alone l, _ => reaches_alone l
  | before o arg, ⟨ha, harg⟩ => reaches_before o (reaches_of_respects arg harg) ha
  | enclosed b inner, ⟨_, hinner⟩ => reaches_enclosed b (reaches_of_respects inner hinner)
  | between o left right, ⟨hy, ha, hl, hr⟩ =>
    reaches_between o (reaches_of_respects left hl) (reaches_of_respects right hr) hy ha
  | bareCall left, ⟨hy, hl⟩ => reaches_bareCall (reaches_of_respects left hl) hy
  | index left inner, ⟨hy, _, hl, hi⟩ =>
    reaches_index (reaches_of_respects left hl) (reaches_of_respects inner hi) hy
  | choice left condition other, ⟨hy, _, _, hl, hc, ho⟩ =>
    reaches_choice (reaches_of_respects left hl) (reaches_of_respects condition hc)
      (reaches_of_respects other ho) hy

/-- **Completeness.**  The yield of a tree that respects the powers is read as that tree. -/
theorem read_yield {e : OpTree} (he : e.Respects) : standard.read e.yield = .ok e.term := by
  have h : standard.expr (e.yield.length + 2) 0 (e.yield ++ []) = .ok (e.term, []) :=
    (reaches_of_respects e he).inner (by omega) fun _ _ => trivial
  rw [List.append_nil] at h
  have hne : standard.entries.isEmpty = false := rfl
  simp only [OperatorTable.read, hne, Bool.false_eq_true, if_false, h, bind, Except.bind]
  rfl

end OpTree

/-! ## 4. Soundness

The reader is looked at as a function that may be any sound reader of operands (`SoundReader`), and what it
does with them is shown to be sound again.  The loop keeps a left operand, and its invariant is that the
readings which were open at the end of this operand have all stopped before the next token.  If the next sign
takes the operand, this is what makes the operand yield to the sign. -/

/-- The tokens `ts` begin with the yield of the tree, which respects the powers, and all readings that
are open at the end of it stop before `rest`. -/
structure ReadAs (ts : List Term) (e : OpTree) (rest : List Term) : Prop where
  yield : e.yield ++ rest = ts
  respects : e.Respects
  spine : ∀ q ∈ e.rightSpine, Stops q rest

/-- What the reader gives is the term of a tree at the start of the tokens, and it has stopped where it
should. -/
def SoundReader (f : ExprReader) : Prop :=
  ∀ (p : Int) (ts : List Term) (t : Term) (rest : List Term), 0 ≤ p → f p ts = .ok (t, rest) →
    ∃ e : OpTree, e.term = t ∧ ReadAs ts e rest ∧ e.Above p ∧ Stops p rest

/-- If the sign that is expected was there, it was the next token. -/
theorem expect_eq_ok {s : String} (h : s.isEmpty = false) {ts rest : List Term}
    (he : OperatorTable.expect s ts = .ok rest) : ts = .symbol s :: rest := by
  cases ts with
  | nil => cases he
  | cons tok ts =>
    simp only [OperatorTable.expect, h, Bool.false_eq_true, if_false] at he
    cases tok with
    | symbol s' =>
      by_cases hs : s' = s
      · simp only [if_pos hs, Except.ok.injEq] at he
        rw [hs, he]
      · simp only [if_neg hs] at he
        cases he
    | _ => cases he

section Sound

variable {f : ExprReader} {ts rest : List Term} {t : Term}

/-- What is read at the start of an expression is a tree that has no left operand at its root. -/
theorem readOpening_sound (hf : SoundReader f) {s : String} {r : Opening}
    (hr : (standard.find? s).bind (·.opening) = some r)
    (h : OperatorTable.readOpening f s ts r = .ok (t, rest)) :
    ∃ e : OpTree, e.term = t ∧ e.leftSpine = [] ∧ ReadAs (.symbol s :: ts) e rest := by
  rcases opening_cases hr with ⟨o, rfl, rfl⟩ | ⟨l, rfl, rfl⟩ | ⟨b, rfl, rfl⟩
  · obtain ⟨⟨arg, mid⟩, harg, h⟩ := ok_of_bind h
    simp only [make_opener] at h
    cases h
    obtain ⟨e, rfl, he, ha, hs⟩ := hf _ _ _ _ o.power_nonneg harg
    refine ⟨.before o e, rfl, rfl, ?_, ⟨ha, he.respects⟩, ?_⟩
    · rw [← he.yield]
      rfl
    · intro q hq
      rcases List.mem_cons.1 hq with rfl | hq
      · exact hs
      · exact he.spine q hq
  · simp only [OperatorTable.readOpening, make_lone] at h
    cases h
    exact ⟨.alone l, rfl, rfl, rfl, trivial, fun q hq => by cases hq⟩
  · obtain ⟨⟨arg, mid⟩, harg, h⟩ := ok_of_bind h
    obtain ⟨rest', hc, h⟩ := ok_of_bind h
    simp only [make_bracket] at h
    cases h
    obtain ⟨e, rfl, he, ha, -⟩ := hf _ _ _ _ (Int.le_refl 0) harg
    have hmid := expect_eq_ok (by cases b <;> rfl) hc
    refine ⟨.enclosed b e, rfl, rfl, ?_, ⟨ha, he.respects⟩, fun q hq => by cases hq⟩
    rw [← he.yield, hmid]
    simp only [OpTree.yield, List.append_assoc, List.cons_append, List.nil_append]

/-- An expression starts with a tree that has no sign with a left operand on top. -/
theorem start_sound (hf : SoundReader f) {tok : Term}
    (h : standard.start f tok ts = .ok (t, rest)) :
    ∃ e : OpTree, e.term = t ∧ e.leftSpine = [] ∧ ReadAs (tok :: ts) e rest := by
  have hatom : isAtom tok = true → ∃ e : OpTree, e.term = t ∧ e.leftSpine = [] ∧
      ReadAs (tok :: ts) e rest := by
    intro ht
    rw [start_atom ht] at h
    cases h
    exact ⟨.atom _ ht, rfl, rfl, rfl, trivial, fun q hq => by cases hq⟩
  cases tok with
  | leaf => exact hatom rfl
  | node k _ _ =>
    cases k with
    | phrase p =>
      cases p
      case block => exact hatom rfl
      all_goals cases h
    | action => cases h
    | declared => cases h
  | symbol s =>
    cases hr : (standard.find? s).bind (·.opening) with
    | none => simp only [OperatorTable.start, hr] at h; cases h
    | some r =>
      simp only [OperatorTable.start, hr] at h
      exact readOpening_sound hf hr h
  | _ => cases h

section Joined

variable {left : OpTree} (hl : left.Respects)

include hl

/-- A sign between two operands.  All that is open at its end is the reading of its right operand, which has
stopped, and what was open at the end of that. -/
theorem ReadAs.between (hf : SoundReader f) (o : Joiner) (hy : left.Yields o.power)
    (hright : f o.rightPower ts = .ok (t, rest)) :
    ∃ e : OpTree, e.term = t ∧ ReadAs (left.yield ++ .symbol o.sign :: ts) (.between o left e) rest := by
  obtain ⟨e, rfl, he, ha, hs⟩ := hf _ _ _ _ o.rightPower_nonneg hright
  refine ⟨e, rfl, ?_, ⟨hy, ha, hl, he.respects⟩, ?_⟩
  · rw [← he.yield]
    simp only [OpTree.yield, List.append_assoc, List.cons_append]
  · intro q hq
    rcases List.mem_cons.1 hq with rfl | hq
    · exact hs
    · exact he.spine q hq

theorem ReadAs.bareCall (hy : left.Yields bareCallPower) :
    ReadAs (left.yield ++ .symbol "!" :: ts) (.bareCall left) ts := by
  refine ⟨?_, ⟨hy, hl⟩, fun q hq => by cases hq⟩
  simp only [OpTree.yield, List.append_assoc, List.cons_append, List.nil_append]

/-- Nothing is open after a closing bracket. -/
theorem ReadAs.index (hf : SoundReader f) (hy : left.Yields OperatorTable.indexPower)
    (hinner : f 0 ts = .ok (t, .symbol "]" :: rest)) :
    ∃ e : OpTree, e.term = t ∧ ReadAs (left.yield ++ .symbol "[" :: ts) (.index left e) rest := by
  obtain ⟨e, rfl, he, ha, -⟩ := hf _ _ _ _ (Int.le_refl 0) hinner
  refine ⟨e, rfl, ?_, ⟨hy, ha, hl, he.respects⟩, fun q hq => by cases hq⟩
  rw [← he.yield]
  simp only [OpTree.yield, List.append_assoc, List.cons_append, List.nil_append]

/-- The condition ends at the sign after it; what is open at the end is the reading of the other result. -/
theorem ReadAs.choice (hf : SoundReader f) (hy : left.Yields choicePower) {c : Term} {mid : List Term}
    (hcondition : f 0 ts = .ok (c, .symbol "else" :: mid)) (hother : f 0 mid = .ok (t, rest)) :
    ∃ e e' : OpTree, e.term = c ∧ e'.term = t ∧
      ReadAs (left.yield ++ .symbol "if" :: ts) (.choice left e e') rest := by
  obtain ⟨e, rfl, he, ha, -⟩ := hf _ _ _ _ (Int.le_refl 0) hcondition
  obtain ⟨e', rfl, he', ha', hs⟩ := hf _ _ _ _ (Int.le_refl 0) hother
  refine ⟨e, e', rfl, rfl, ?_, ⟨hy, ha, ha', hl, he.respects, he'.respects⟩, ?_⟩
  · rw [← he.yield, ← he'.yield]
    simp only [OpTree.yield, List.append_assoc, List.cons_append]
  · intro q hq
    rcases List.mem_cons.1 hq with rfl | hq
    · exact hs
    · exact he'.spine q hq

end Joined

/-- The sign that joins a left operand to what follows makes a tree of both, with the sign on top.  The kind
of the sign says what is read after it, and for each kind it is checked that the readings which are open at
the end have stopped. -/
theorem join_sound (hf : SoundReader f) {tok : Term} {q : Int} {left : OpTree} (hl : left.Respects)
    (hy : left.Yields q) (hq : standard.power tok = .ok q)
    (h : standard.join f tok left.term ts = .ok (t, rest)) :
    ∃ e : OpTree, e.term = t ∧ e.leftSpine = q :: left.leftSpine ∧
      ReadAs (left.yield ++ tok :: ts) e rest := by
  obtain ⟨s, rfl⟩ : ∃ s, tok = .symbol s := by
    cases tok with
    | symbol s => exact ⟨s, rfl⟩
    | _ => cases h
  rcases hfind : standard.find? s with _ | ⟨p, op, _ | r⟩
  · simp only [OperatorTable.join, hfind] at h; cases h
  · simp only [OperatorTable.join, hfind] at h; cases h
  have hpq : p = q := by
    rw [power_symbol hfind] at hq
    exact Except.ok.inj hq
  subst hpq
  simp only [OperatorTable.join, hfind] at h
  rcases joining_cases hfind with ⟨o, rfl, rfl, rfl⟩ | ⟨rfl, rfl, rfl⟩ | ⟨rfl, rfl, rfl⟩ | ⟨rfl, rfl, rfl⟩
  · -- both kinds of signs between two operands read the second one with their own power
    obtain ⟨⟨right, mid⟩, hright, hm⟩ : ∃ x : Term × List Term, f o.rightPower ts = .ok x ∧
        (Maker.phrase o.phrase).make [left.term, x.1] >>= (fun y => .ok (y, x.2)) = .ok (t, rest) := by
      unfold Joiner.joining at h
      unfold Joiner.rightPower
      cases ho : o.toRight <;> rw [ho] at h <;> exact ok_of_bind h
    obtain ⟨e, rfl, he⟩ := ReadAs.between hl hf o hy hright
    rw [OpTree.make_between] at hm
    cases hm
    exact ⟨.between o left e, rfl, rfl, he⟩
  · cases h
    exact ⟨.bareCall left, rfl, rfl, ReadAs.bareCall hl hy⟩
  · obtain ⟨⟨inner, mid⟩, hinner, h⟩ := ok_of_bind h
    obtain ⟨rest', hc, h⟩ := ok_of_bind h
    cases h
    rw [expect_eq_ok rfl hc] at hinner
    obtain ⟨e, rfl, he⟩ := ReadAs.index hl hf hy hinner
    exact ⟨.index left e, rfl, rfl, he⟩
  · obtain ⟨⟨condition, mid⟩, hcondition, h⟩ := ok_of_bind h
    obtain ⟨mid', hc, h⟩ := ok_of_bind h
    obtain ⟨⟨other, rest'⟩, hother, h⟩ := ok_of_bind h
    cases h
    rw [expect_eq_ok rfl hc] at hcondition
    obtain ⟨e, e', rfl, rfl, he⟩ := ReadAs.choice hl hf hy hcondition hother
    exact ⟨.choice left e e', rfl, rfl, he⟩

end Sound

namespace OpTree

variable {e left : OpTree} {p q : Int}

/-- A tree without a sign with a left operand on top can be read with any power. -/
theorem above_of_leftSpine_nil (h : e.leftSpine = []) : e.Above p := by
  intro q hq
  rw [h] at hq
  cases hq

/-- With a stronger sign on top of the left operand, the tree can still be read with the power. -/
theorem above_of_leftSpine_cons (h : e.leftSpine = q :: left.leftSpine) (hpq : p < q)
    (ha : left.Above p) : e.Above p := by
  intro r hr
  rw [h] at hr
  rcases List.mem_cons.1 hr with rfl | hr
  · exact hpq
  · exact ha r hr

/-- The sign before which all open readings have stopped can take the whole tree. -/
theorem yields_of_stops {tok : Term} {ts : List Term} (hs : ∀ r ∈ left.rightSpine, Stops r (tok :: ts))
    (hq : standard.power tok = .ok q) : left.Yields q := by
  intro r hr
  obtain ⟨q', hq', hle⟩ := hs r hr
  rw [hq] at hq'
  cases hq'
  exact hle

end OpTree

/-- Going on from a left operand is sound if reading with less depth is.  The left operand is a tree before
which all open readings have stopped, so it yields to the next sign whatever that is; if that sign binds
stronger it takes the operand and the tree with the sign on top is the next left operand, and if not, reading
stops. -/
theorem extend_sound : ∀ (n : Nat), (∀ m < n, SoundReader (standard.expr m)) →
    ∀ (p : Int) (left : OpTree) (ts : List Term) (t : Term) (rest : List Term), 0 ≤ p →
    left.Respects → left.Above p → (∀ q ∈ left.rightSpine, Stops q ts) →
    standard.extend n p left.term ts = .ok (t, rest) →
    ∃ e : OpTree, e.term = t ∧ ReadAs (left.yield ++ ts) e rest ∧ e.Above p ∧ Stops p rest := by
  intro n
  induction n with
  | zero => intro _ p left ts t rest _ _ _ _ h; cases h
  | succ n ih =>
    intro hf p left ts t rest hp hl ha hs h
    cases ts with
    | nil =>
      simp only [OperatorTable.extend, if_neg (Int.not_lt.2 hp)] at h
      cases h
      exact ⟨left, rfl, ⟨rfl, hl, hs⟩, ha, trivial⟩
    | cons tok ts =>
      obtain ⟨q, hq, h⟩ := ok_of_bind h
      by_cases hpq : p < q
      · rw [if_pos hpq] at h
        obtain ⟨⟨left', mid⟩, hjoin, h⟩ := ok_of_bind h
        have hy := OpTree.yields_of_stops hs hq
        obtain ⟨e, rfl, hspine, he⟩ := join_sound (hf n (Nat.lt_succ_self n)) hl hy hq hjoin
        have hae := OpTree.above_of_leftSpine_cons hspine hpq ha
        obtain ⟨e', he't, he', hae', hs'⟩ := ih (fun m hm => hf m (Nat.lt_succ_of_lt hm)) p e mid t rest
          hp he.respects hae he.spine h
        refine ⟨e', he't, ?_, hae', hs'⟩
        rw [← he.yield]
        exact he'
      · rw [if_neg hpq] at h
        cases h
        exact ⟨left, rfl, ⟨rfl, hl, hs⟩, ha, q, hq, Int.not_lt.1 hpq⟩

/-- **Soundness.**  Whatever depth it has, what the reader gives is the term of a tree that respects the
powers.  The induction is on the depth, since both the operands of a sign and the loop are read with less of
it. -/
theorem expr_sound (n : Nat) : SoundReader (standard.expr n) := by
  induction n using Nat.strongRecOn with
  | ind n ih =>
    intro p ts t rest hp h
    cases n with
    | zero => cases h
    | succ n =>
      cases ts with
      | nil => cases h
      | cons tok ts =>
        rw [expr_cons] at h
        obtain ⟨⟨left, mid⟩, hstart, h⟩ := ok_of_bind h
        obtain ⟨e, rfl, hspine, he⟩ := start_sound (ih n (Nat.lt_succ_self n)) hstart
        obtain ⟨e', he't, he', hae', hs'⟩ := extend_sound n (fun m hm => ih m (Nat.lt_succ_of_lt hm))
          p e mid t rest hp he.respects (OpTree.above_of_leftSpine_nil hspine) he.spine h
        refine ⟨e', he't, ?_, hae', hs'⟩
        rw [← he.yield]
        exact he'

/-- A list of tokens that is read is the yield of a tree that respects the powers. -/
theorem read_sound {ts : List Term} {t : Term} (h : standard.read ts = .ok t) :
    ∃ e : OpTree, e.Respects ∧ e.yield = ts ∧ e.term = t := by
  have hne : standard.entries.isEmpty = false := rfl
  simp only [OperatorTable.read, hne, Bool.false_eq_true, if_false] at h
  obtain ⟨⟨t', rest⟩, hexpr, h⟩ := ok_of_bind h
  cases rest with
  | cons tok rest => cases h
  | nil =>
    cases h
    obtain ⟨e, het, he, -, -⟩ := expr_sound _ _ _ _ _ (Int.le_refl 0) hexpr
    refine ⟨e, he.respects, ?_, het⟩
    rw [← he.yield, List.append_nil]

/-! ## 5. One tree for each list

The term of a tree shows the signs of the tree, with one exception: a sign that stands for itself becomes
a leaf, and such a leaf may also be among the tokens.  The yield tells these two apart. -/

/-- The constructors of trees.  Operands by themselves are taken together. -/
inductive Form where
  | operand | before | enclosed | between | bareCall | index | choice

/-- The constructor that a node comes from. -/
def Form.ofPhrase : Phrase → Form
  | .print | .check | .minus | .plus | .select | .thunk => before
  | .parens | .brackets => enclosed
  | .callBare => bareCall
  | .subscript => index
  | .ifElse => choice
  | .block => operand
  | _ => between

/-- The constructor that a term comes from. -/
def Form.ofTerm : Term → Form
  | .node (.phrase p) _ _ => ofPhrase p
  | _ => operand

theorem Opener.phrase_inj {o o' : Opener} (h : o.phrase = o'.phrase) : o = o' := by
  cases o <;> cases o' <;> first | rfl | cases h

theorem Joiner.phrase_inj {o o' : Joiner} (h : o.phrase = o'.phrase) : o = o' := by
  cases o <;> cases o' <;> first | rfl | cases h

theorem Bracket.phrase_inj {b b' : Bracket} (h : b.phrase = b'.phrase) : b = b' := by
  cases b <;> cases b' <;> first | rfl | cases h

theorem Lone.word_inj {l l' : Lone} (h : l.word = l'.word) : l = l' := by
  cases l <;> cases l' <;> first | rfl | cases h

namespace OpTree

def form : OpTree → Form
  | atom _ _ | alone _ => .operand
  | before _ _ => .before
  | enclosed _ _ => .enclosed
  | between _ _ _ => .between
  | bareCall _ => .bareCall
  | index _ _ => .index
  | choice _ _ _ => .choice

/-- The form of a tree can be told from its term. -/
theorem ofTerm_term (e : OpTree) : Form.ofTerm e.term = e.form := by
  cases e with
  | atom tok h =>
    cases tok with
    | node k _ _ =>
      cases k with
      | phrase p => cases p <;> first | rfl | cases h
      | action => cases h
      | declared => cases h
    | _ => rfl
  | alone l => rfl
  | before o arg => cases o <;> rfl
  | enclosed b inner => cases b <;> rfl
  | between o left right => cases o <;> rfl
  | bareCall left => rfl
  | index left inner => rfl
  | choice left condition other => rfl

theorem form_eq_of_term {e e' : OpTree} (h : e.term = e'.term) : e.form = e'.form := by
  rw [← ofTerm_term, ← ofTerm_term, h]

/-- Only a comma makes a list with commas. -/
theorem commaItems_term (e : OpTree) :
    (∃ left right, e = between .comma left right) ∨ commaItems e.term = [e.term] := by
  cases e with
  | atom tok h =>
    cases tok with
    | node k _ _ =>
      cases k with
      | phrase p => cases p <;> first | exact .inr rfl | cases h
      | action => cases h
      | declared => cases h
    | _ => exact .inr rfl
  | alone l => exact .inr rfl
  | before o arg => cases o <;> exact .inr rfl
  | enclosed b inner => cases b <;> exact .inr rfl
  | between o left right =>
    cases o
    case comma => exact .inl ⟨left, right, rfl⟩
    all_goals exact .inr rfl
  | bareCall left => exact .inr rfl
  | index left inner => exact .inr rfl
  | choice left condition other => exact .inr rfl

theorem commaItems_comma (left right : OpTree) :
    commaItems (between .comma left right).term = commaItems left.term ++ [right.term] := rfl

theorem commaItems_ne_nil (e : OpTree) : commaItems e.term ≠ [] := by
  rcases e.commaItems_term with ⟨left, right, rfl⟩ | h
  · simp [commaItems_comma]
  · simp [h]

/-- A list with commas is not a single item. -/
theorem commaItems_comma_ne (left right : OpTree) (t : Term) :
    commaItems (between .comma left right).term ≠ [t] := by
  intro h
  have hlen := congrArg List.length h
  simp only [commaItems_comma, List.length_append, List.length_singleton] at hlen
  exact left.commaItems_ne_nil (List.length_eq_zero_iff.1 (by omega))

theorem term_of_commaItems {e e' : OpTree} (h : commaItems e.term = commaItems e'.term) :
    e.term = e'.term := by
  rcases e.commaItems_term with ⟨l, r, rfl⟩ | he <;> rcases e'.commaItems_term with ⟨l', r', rfl⟩ | he'
  · exact congrArg (Term.phrase .comma) h
  · exact absurd (h.trans he') (commaItems_comma_ne l r _)
  · exact absurd (h.symm.trans he) (commaItems_comma_ne l' r' _)
  · rw [he, he'] at h
    exact (List.cons.inj h).1

/-- The operands of two signs between two operands that make the same term. -/
theorem term_between_inj {o o' : Joiner} {l r l' r' : OpTree}
    (h : (between o l r).term = (between o' l' r').term) :
    o = o' ∧ l.term = l'.term ∧ r.term = r'.term := by
  have ho : o = o' := by
    refine Joiner.phrase_inj ?_
    cases o <;> cases o' <;> first | rfl | cases h
  subst ho
  refine ⟨rfl, ?_⟩
  cases o
  case comma =>
    have hitems : commaItems l.term ++ [r.term] = commaItems l'.term ++ [r'.term] := congrArg commaItems h
    obtain ⟨hl, hr⟩ := List.append_inj' hitems rfl
    exact ⟨term_of_commaItems hl, (List.cons.inj hr).1⟩
  all_goals
    simp only [term, Term.phrase, Term.node.injEq, List.cons.injEq, and_true, true_and] at h
    exact h

/-- The tree is known from its term and its yield: every tree with the same term has a yield of the same
length, and is the same tree if the yield is the same.

The lengths are there for the induction.  Two yields that are equal are cut into the yields of the operands at
the same places, since operands with the same terms have yields of the same length. -/
def Known (e : OpTree) : Prop :=
  ∀ e' : OpTree, e.term = e'.term → e.yield.length = e'.yield.length ∧ (e.yield = e'.yield → e = e')

/-- An operand by itself.  Of the trees with the same term only a sign that stands for itself could be another
one, and its token is a sign. -/
theorem known_atom (tok : Term) (h : isAtom tok = true) : Known (atom tok h) := by
  intro e' ht
  have hform : Form.operand = e'.form := form_eq_of_term ht
  cases e' with
  | atom tok' h' =>
    cases (show tok = tok' from ht)
    exact ⟨rfl, fun _ => rfl⟩
  | alone l' =>
    -- the sign is not a token that is an operand by itself
    refine ⟨rfl, fun hy => ?_⟩
    cases (List.cons.inj hy).1
    cases h
  | _ => cases hform

/-- A sign that stands for itself, likewise. -/
theorem known_alone (l : Lone) : Known (alone l) := by
  intro e' ht
  have hform : Form.operand = e'.form := form_eq_of_term ht
  cases e' with
  | atom tok' h' =>
    refine ⟨rfl, fun hy => ?_⟩
    cases (List.cons.inj hy).1
    cases h'
  | alone l' =>
    simp only [term, Term.word, Term.leaf.injEq, LeafKind.word.injEq] at ht
    cases Lone.word_inj ht.1
    exact ⟨rfl, fun _ => rfl⟩
  | _ => cases hform

/-- A sign before an operand.  Its kind tells the sign, and the operand is known. -/
theorem Known.before {arg : OpTree} (h : Known arg) (o : Opener) : Known (before o arg) := by
  intro e' ht
  have hform : Form.before = e'.form := form_eq_of_term ht
  cases e' with
  | before o' arg' =>
    simp only [term, Term.phrase, Term.node.injEq, NodeKind.phrase.injEq, List.cons.injEq, and_true,
      true_and] at ht
    cases Opener.phrase_inj ht.1
    obtain ⟨hlen, heq⟩ := h arg' ht.2
    refine ⟨by simp only [yield, List.length_cons, hlen], fun hy => ?_⟩
    rw [heq (List.cons.inj hy).2]
  | _ => cases hform

/-- Brackets, likewise.  Where the inner tokens end is known from their number. -/
theorem Known.enclosed {inner : OpTree} (h : Known inner) (b : Bracket) : Known (enclosed b inner) := by
  intro e' ht
  have hform : Form.enclosed = e'.form := form_eq_of_term ht
  cases e' with
  | enclosed b' inner' =>
    simp only [term, Term.phrase, Term.node.injEq, NodeKind.phrase.injEq, List.cons.injEq, and_true,
      true_and] at ht
    cases Bracket.phrase_inj ht.1
    obtain ⟨hlen, heq⟩ := h inner' ht.2
    refine ⟨by simp only [yield, List.length_cons, List.length_append, hlen], fun hy => ?_⟩
    rw [heq (List.append_inj (List.cons.inj hy).2 hlen).1]
  | _ => cases hform

/-- A sign between two operands.  The tokens of the left one are told apart from the rest by their number,
which is the same for all trees with this term. -/
theorem Known.between {left right : OpTree} (hl : Known left) (hr : Known right) (o : Joiner) :
    Known (between o left right) := by
  intro e' ht
  have hform : Form.between = e'.form := form_eq_of_term ht
  cases e' with
  | between o' left' right' =>
    obtain ⟨rfl, htl, htr⟩ := term_between_inj ht
    obtain ⟨hlenl, heql⟩ := hl left' htl
    obtain ⟨hlenr, heqr⟩ := hr right' htr
    refine ⟨by simp only [yield, List.length_cons, List.length_append, hlenl, hlenr], fun hy => ?_⟩
    obtain ⟨hyl, hyr⟩ := List.append_inj hy hlenl
    rw [heql hyl, heqr (List.cons.inj hyr).2]
  | _ => cases hform

/-- A call without arguments, likewise. -/
theorem Known.bareCall {left : OpTree} (h : Known left) : Known (bareCall left) := by
  intro e' ht
  have hform : Form.bareCall = e'.form := form_eq_of_term ht
  cases e' with
  | bareCall left' =>
    simp only [term, Term.phrase, Term.node.injEq, List.cons.injEq, and_true, true_and] at ht
    obtain ⟨hlen, heq⟩ := h left' ht
    refine ⟨by simp only [yield, List.length_append, hlen], fun hy => ?_⟩
    rw [heq (List.append_inj hy hlen).1]
  | _ => cases hform

/-- An index, with both operands told apart by their numbers of tokens. -/
theorem Known.index {left inner : OpTree} (hl : Known left) (hi : Known inner) : Known (index left inner) := by
  intro e' ht
  have hform : Form.index = e'.form := form_eq_of_term ht
  cases e' with
  | index left' inner' =>
    simp only [term, Term.phrase, Term.node.injEq, List.cons.injEq, and_true, true_and] at ht
    obtain ⟨hlenl, heql⟩ := hl left' ht.1
    obtain ⟨hleni, heqi⟩ := hi inner' ht.2
    refine ⟨by simp only [yield, List.length_cons, List.length_append, hlenl, hleni], fun hy => ?_⟩
    obtain ⟨hyl, hyi⟩ := List.append_inj hy hlenl
    rw [heql hyl, heqi (List.append_inj (List.cons.inj hyi).2 hleni).1]
  | _ => cases hform

/-- A choice, with its three operands. -/
theorem Known.choice {left condition other : OpTree} (hl : Known left) (hc : Known condition)
    (ho : Known other) : Known (choice left condition other) := by
  intro e' ht
  have hform : Form.choice = e'.form := form_eq_of_term ht
  cases e' with
  | choice left' condition' other' =>
    simp only [term, Term.phrase, Term.node.injEq, List.cons.injEq, and_true, true_and] at ht
    obtain ⟨hlenl, heql⟩ := hl left' ht.2.1
    obtain ⟨hlenc, heqc⟩ := hc condition' ht.1
    obtain ⟨hleno, heqo⟩ := ho other' ht.2.2
    refine ⟨by simp only [yield, List.length_cons, List.length_append, hlenl, hlenc, hleno],
      fun hy => ?_⟩
    obtain ⟨hyl, hy⟩ := List.append_inj hy hlenl
    obtain ⟨hyc, hy⟩ := List.append_inj (List.cons.inj hy).2 hlenc
    rw [heql hyl, heqc hyc, heqo (List.cons.inj hy).2]
  | _ => cases hform

/-- **A tree is known from its term and its yield.** -/
theorem known (e : OpTree) : Known e := by
  induction e with
  | atom tok h => exact known_atom tok h
  | alone l => exact known_alone l
  | before o arg ih => exact ih.before o
  | enclosed b inner ih => exact ih.enclosed b
  | between o left right ihl ihr => exact ihl.between ihr o
  | bareCall left ih => exact ih.bareCall
  | index left inner ihl ihi => exact ihl.index ihi
  | choice left condition other ihl ihc iho => exact ihl.choice ihc iho

/-- Two trees that respect the powers and have the same yield are the same.  By completeness they have the
same term. -/
theorem eq_of_yield {e e' : OpTree} (he : e.Respects) (he' : e'.Respects)
    (h : e.yield = e'.yield) : e = e' := by
  have ht : e.term = e'.term := by
    refine Except.ok.inj (ε := Error) ?_
    rw [← read_yield he, ← read_yield he', h]
  exact (known e e' ht).2 h

end OpTree

/-- **What the reader accepts.**  A list of tokens is read as a term exactly if it is the yield of an
operator tree that respects the powers of its signs and denotes that term; and there is at most one such
tree for a list. -/
theorem read_eq_ok_iff_yield (ts : List Term) :
    (∀ t : Term, standard.read ts = .ok t ↔ ∃ e : OpTree, e.Respects ∧ e.yield = ts ∧ e.term = t) ∧
    (∀ e e' : OpTree, e.Respects ∧ e.yield = ts → e'.Respects ∧ e'.yield = ts → e = e') := by
  refine ⟨fun t => ⟨read_sound, ?_⟩, ?_⟩
  · rintro ⟨e, he, rfl, rfl⟩
    exact OpTree.read_yield he
  · rintro e e' ⟨he, hy⟩ ⟨he', hy'⟩
    exact OpTree.eq_of_yield he he' (hy.trans hy'.symm)

/-- Of the two trees with the yield `a == b < c` only the one with `<` below `==` is read. -/
theorem read_eq_less :
    let name (s : String) : Term := .word .id s
    let ts : List Term := [name "a", .symbol "==", name "b", .symbol "<", name "c"]
    standard.read ts = .ok (.phrase .eq [name "a", .phrase .less [name "b", name "c"]]) ∧
      ∀ e : OpTree, e.Respects → e.yield = ts →
        e = .between .eq (.atom (name "a") rfl)
          (.between .less (.atom (name "b") rfl) (.atom (name "c") rfl)) := by
  intro name ts
  obtain ⟨hread, hone⟩ := read_eq_ok_iff_yield ts
  have htree : (OpTree.between .eq (.atom (name "a") rfl)
      (.between .less (.atom (name "b") rfl) (.atom (name "c") rfl))).Respects := by decide
  exact ⟨(hread _).2 ⟨_, htree, rfl, rfl⟩, fun e he hy => hone _ _ ⟨he, hy⟩ ⟨htree, rfl⟩⟩

end Precedence

end Offside
