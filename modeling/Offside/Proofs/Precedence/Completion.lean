import Offside.Proofs.Precedence.Reading
/-!
# Tokens that are not yet an expression

A list of tokens that is not read may still be the start of one that is.  The reader tells the two cases
apart: it fails with `Error.endOfTokens` exactly if more tokens can make an expression of the list, and
every other error it gives stays the same whatever tokens follow (`read_eq_endOfTokens_iff`).

* That an error *stays* is a matter of two readings, one of `ts` and one of `ts ++ us`.  They go the same
  way until the first one has taken all of its tokens, and what happens to it from then on is that it
  succeeds with nothing left or that it misses a token (`Continues`).
* That a list which ends too early *can be completed* follows the reader, as soundness does.  What has
  been read is a tree, and where the tokens end inside of a sign's operands, the operands and the closing
  signs that are missing can be supplied (`Begins`).  This also shows that the depth is never used up.
-/

namespace Offside

namespace Precedence

open OperatorTable (standard ExprReader)

/-! ## 1. Errors of the tokens read so far

What one token does, as a list of cases.  The table has many signs, but only a few things can happen at a
token: it is refused, it is taken as it is, or operands are read and signs are expected in an order that
depends on the kind of the sign.  The cases are stated for any reader of operands, so that two readings can be
compared case by case (section 2) and one reading can be followed (section 3). -/

/-- The errors about a token that cannot stand where it stands. -/
def Refusal (e : Error) : Prop := e.fault = .noAttribute ∨ e.fault = .wrongToken

theorem refusal_ofMissing (tok : Term) (trait : String) : Refusal (.ofMissing tok trait) := by
  cases tok <;> exact .inl rfl

/-- A token without a power is refused for good. -/
theorem refusal_of_power {tok : Term} {e : Error} (h : standard.power tok = .error e) : Refusal e := by
  cases tok with
  | leaf => cases h
  | symbol s =>
    simp only [OperatorTable.power] at h
    cases hs : standard.find? s with
    | none =>
      simp only [hs] at h
      cases h
      exact .inl rfl
    | some o => simp only [hs] at h; cases h
  | _ =>
    cases h
    exact refusal_ofMissing _ _

/-- A sign that is asked for and is not there is missing or is another one. -/
theorem refusal_of_expect {s : String} (hs : s.isEmpty = false) {tok : Term} {ts : List Term} {e : Error}
    (h : OperatorTable.expect s (tok :: ts) = .error e) : Refusal e := by
  simp only [OperatorTable.expect, hs, Bool.false_eq_true, if_false] at h
  cases tok with
  | symbol s' =>
    by_cases hss : s' = s
    · simp only [if_pos hss] at h
      cases h
    · simp only [if_neg hss] at h
      cases h
      exact .inr rfl
  | _ =>
    cases h
    exact refusal_ofMissing _ _

/-- The signs between two operands make something of any two terms. -/
theorem exists_make_joiner (o : Joiner) (left right : Term) :
    ∃ t, (Maker.phrase o.phrase).make [left, right] = .ok t := by
  cases o <;> exact ⟨_, rfl⟩

/-- What a token does at the start of an expression: it cannot stand there, it is an operand by itself, or it
is a sign that reads an operand.  The cases are stated for any reader `f` of operands, so that they hold for
both of two readers that are compared. -/
theorem start_cases (tok : Term) :
    (∃ e, Refusal e ∧ ∀ f ts, standard.start f tok ts = .error e) ∨
    (∃ t, ∀ f ts, standard.start f tok ts = .ok (t, ts)) ∨
    (∃ o : Opener, tok = .symbol o.sign ∧ ∀ f ts, standard.start f tok ts =
      f o.power ts >>= fun x => .ok (.phrase o.phrase [x.1], x.2)) ∨
    (∃ b : Bracket, tok = .symbol b.opening ∧ ∀ f ts, standard.start f tok ts =
      f 0 ts >>= fun x => OperatorTable.expect b.closing x.2 >>= fun rest =>
        .ok (.phrase b.phrase [x.1], rest)) := by
  by_cases hatom : isAtom tok = true
  · exact .inr (.inl ⟨tok, fun f ts => start_atom hatom⟩)
  cases tok with
  | leaf => exact absurd rfl hatom
  | node k site kids =>
    refine .inl ⟨_, refusal_ofMissing (.node k site kids) "nud", fun f ts => ?_⟩
    cases k with
    | phrase p => cases p <;> first | rfl | exact absurd rfl hatom
    | action => rfl
    | declared => rfl
  | symbol s =>
    cases hr : (standard.find? s).bind (·.opening) with
    | none =>
      refine .inl ⟨.lacks (.symbol s) "nud", .inl rfl, fun f ts => ?_⟩
      simp only [OperatorTable.start, hr]
    | some r =>
      rcases opening_cases hr with ⟨o, rfl, rfl⟩ | ⟨l, rfl, rfl⟩ | ⟨b, rfl, rfl⟩
      · refine .inr (.inr (.inl ⟨o, rfl, fun f ts => ?_⟩))
        simp only [OperatorTable.start, hr, OperatorTable.readOpening, make_opener]
        rfl
      · exact .inr (.inl ⟨_, fun f ts => start_lone l⟩)
      · refine .inr (.inr (.inr ⟨b, rfl, fun f ts => ?_⟩))
        simp only [OperatorTable.start, hr, OperatorTable.readOpening, make_bracket]
        rfl
  | _ => exact .inl ⟨_, refusal_ofMissing _ "nud", fun f ts => rfl⟩

/-- What a token does after a left operand: it cannot stand there, or it is one of the signs. -/
theorem join_cases (tok : Term) :
    (∃ e, Refusal e ∧ ∀ f left ts, standard.join f tok left ts = .error e) ∨
    (∃ o : Joiner, tok = .symbol o.sign ∧ ∀ f left ts, standard.join f tok left ts =
      f o.rightPower ts >>= fun x =>
        (Maker.phrase o.phrase).make [left, x.1] >>= fun y => .ok (y, x.2)) ∨
    (tok = .symbol "!" ∧ ∀ f left ts, standard.join f tok left ts = .ok (.phrase .callBare [left], ts)) ∨
    (tok = .symbol "[" ∧ ∀ f left ts, standard.join f tok left ts =
      f 0 ts >>= fun x => OperatorTable.expect "]" x.2 >>= fun rest =>
        .ok (.phrase .subscript [left, x.1], rest)) ∨
    (tok = .symbol "if" ∧ ∀ f left ts, standard.join f tok left ts =
      f 0 ts >>= fun x => OperatorTable.expect "else" x.2 >>= fun rest =>
        f 0 rest >>= fun y => .ok (.phrase .ifElse [x.1, left, y.1], y.2)) := by
  cases tok with
  | symbol s =>
    rcases hfind : standard.find? s with _ | ⟨p, op, _ | r⟩
    · refine .inl ⟨.lacks (.symbol s) "led", .inl rfl, fun f left ts => ?_⟩
      simp only [OperatorTable.join, hfind]
    · refine .inl ⟨.lacks (.symbol s) "led", .inl rfl, fun f left ts => ?_⟩
      simp only [OperatorTable.join, hfind]
    rcases joining_cases hfind with ⟨o, rfl, rfl, rfl⟩ | ⟨rfl, rfl, rfl⟩ | ⟨rfl, rfl, rfl⟩ | ⟨rfl, rfl, rfl⟩
    · refine .inr (.inl ⟨o, rfl, fun f left ts => ?_⟩)
      simp only [OperatorTable.join, hfind]
      unfold Joiner.joining Joiner.rightPower
      cases o.toRight <;> rfl
    · exact .inr (.inr (.inl ⟨rfl, fun f left ts => join_bareCall left⟩))
    · refine .inr (.inr (.inr (.inl ⟨rfl, fun f left ts => ?_⟩)))
      simp only [OperatorTable.join, hfind]
      rfl
    · refine .inr (.inr (.inr (.inr ⟨rfl, fun f left ts => ?_⟩)))
      simp only [OperatorTable.join, hfind]
      rfl
  | _ => exact .inl ⟨_, refusal_ofMissing _ "led", fun f left ts => rfl⟩

/-! ## 2. What stays when more tokens follow

Two readings are compared, of `ts` and of `ts ++ us`.  As long as the first one has a token left, the second
one has the same token in front.  `AtEnd` collects what may have become of the first one if it has none left:
after that nothing is said about the second one any more. -/

/-- The result of a reading that has come to the end of the tokens. -/
inductive AtEnd : Except Error (Term × List Term) → Prop where
  | short : AtEnd (.error .endOfTokens)
  | deep : AtEnd (.error .recursion)
  | whole (t : Term) : AtEnd (.ok (t, []))

/-- Two results of which the second one is read with `us` after the tokens of the first one.  Before the
end of its tokens, the first reading has come to nothing that the second one does not come to. -/
inductive Continues (us : List Term) :
    Except Error (Term × List Term) → Except Error (Term × List Term) → Prop where
  | atEnd {x y : Except Error (Term × List Term)} (h : AtEnd x) : Continues us x y
  | refused {e : Error} (h : Refusal e) : Continues us (.error e) (.error e)
  | left (t tok : Term) (rest : List Term) :
    Continues us (.ok (t, tok :: rest)) (.ok (t, tok :: (rest ++ us)))

/-- The second reader goes on where the first one has come to the end of its tokens. -/
def ContinuesReader (us : List Term) (f g : ExprReader) : Prop :=
  ∀ (p : Int) (ts : List Term), 0 ≤ p → Continues us (f p ts) (g p (ts ++ us))

namespace Continues

variable {us : List Term} {x y : Except Error (Term × List Term)}

theorem ok (t : Term) (ts : List Term) : Continues us (.ok (t, ts)) (.ok (t, ts ++ us)) := by
  cases ts with
  | nil => exact .atEnd (.whole t)
  | cons tok rest => exact .left t tok rest

/-- What is done next may look at the tokens that are left, if it does nothing else at their end than to miss
one.  These are the two hypotheses: what happens at the end, and what happens with a token in front. -/
theorem bind {f g : Term × List Term → Except Error (Term × List Term)} (h : Continues us x y)
    (hnil : ∀ t, AtEnd (f (t, [])))
    (hcons : ∀ t tok rest, Continues us (f (t, tok :: rest)) (g (t, tok :: (rest ++ us)))) :
    Continues us (x >>= f) (y >>= g) := by
  cases h with
  | atEnd hx =>
    cases hx with
    | short => exact .atEnd .short
    | deep => exact .atEnd .deep
    | whole t => exact .atEnd (hnil t)
  | refused he => exact .refused he
  | left t tok rest => exact hcons t tok rest

/-- A sign is asked for among the tokens that are left. -/
theorem expect {s : String} (hs : s.isEmpty = false) {tok : Term} {ts : List Term}
    {f g : List Term → Except Error (Term × List Term)}
    (h : ∀ rest, Continues us (f rest) (g (rest ++ us))) :
    Continues us (OperatorTable.expect s (tok :: ts) >>= f)
      (OperatorTable.expect s (tok :: (ts ++ us)) >>= g) := by
  cases he : OperatorTable.expect s (tok :: ts) with
  | ok rest =>
    obtain ⟨rfl, rfl⟩ := List.cons.inj (expect_eq_ok hs he)
    rw [expect_symbol hs]
    exact h ts
  | error e =>
    have hsame : OperatorTable.expect s (tok :: (ts ++ us)) = .error e := by
      rw [← he]
      simp only [OperatorTable.expect, hs, Bool.false_eq_true, if_false] at he ⊢
      cases tok with
      | symbol s' =>
        by_cases hss : s' = s
        · simp only [if_pos hss] at he
          cases he
        · simp only [if_neg hss]
      | _ => rfl
    rw [hsame]
    exact .refused (refusal_of_expect hs he)

end Continues

section Continues

variable {us ts : List Term} {f g : ExprReader}

/-- What a token does at the start of an expression, by its role.  If the tokens end inside of an operand or
before a closing sign, more of them may follow. -/
theorem start_continues (hfg : ContinuesReader us f g) (tok : Term) :
    Continues us (standard.start f tok ts) (standard.start g tok (ts ++ us)) := by
  rcases start_cases tok with ⟨e, he, hstart⟩ | ⟨t, hstart⟩ | ⟨o, -, hstart⟩ | ⟨b, -, hstart⟩
  · simp only [hstart]
    exact .refused he
  · simp only [hstart]
    exact .ok t ts
  · simp only [hstart]
    exact (hfg _ ts o.power_nonneg).bind (fun t => .whole _) fun t tok rest => .left _ tok rest
  · simp only [hstart]
    refine (hfg 0 ts (Int.le_refl 0)).bind (fun t => .short) ?_
    intro t tok rest
    exact .expect (by cases b <;> rfl) fun rest' => .ok _ rest'

/-- What a sign does after a left operand, by its role.  The same, with one or two operands. -/
theorem join_continues (hfg : ContinuesReader us f g) (tok left : Term) :
    Continues us (standard.join f tok left ts) (standard.join g tok left (ts ++ us)) := by
  rcases join_cases tok with ⟨e, he, hjoin⟩ | ⟨o, -, hjoin⟩ | ⟨-, hjoin⟩ | ⟨-, hjoin⟩ | ⟨-, hjoin⟩
  · simp only [hjoin]
    exact .refused he
  · simp only [hjoin]
    refine (hfg _ ts o.rightPower_nonneg).bind ?_ ?_
    · intro t
      obtain ⟨made, hmade⟩ := exists_make_joiner o left t
      simp only [hmade]
      exact .whole made
    · intro t tok rest
      obtain ⟨made, hmade⟩ := exists_make_joiner o left t
      simp only [hmade]
      exact .left made tok rest
  · simp only [hjoin]
    exact .ok _ ts
  · simp only [hjoin]
    refine (hfg 0 ts (Int.le_refl 0)).bind (fun t => .short) ?_
    intro t tok rest
    exact .expect rfl fun rest' => .ok _ rest'
  · simp only [hjoin]
    refine (hfg 0 ts (Int.le_refl 0)).bind (fun t => .short) ?_
    intro t tok rest
    refine .expect rfl ?_
    intro rest'
    exact (hfg 0 rest' (Int.le_refl 0)).bind (fun t => .whole _) fun t tok rest => .left _ tok rest

end Continues

theorem extend_nil_atEnd (n : Nat) {p : Int} (left : Term) (hp : 0 ≤ p) :
    AtEnd (standard.extend n p left []) := by
  cases n with
  | zero => exact .deep
  | succ n =>
    simp only [OperatorTable.extend, if_neg (Int.not_lt.2 hp)]
    exact .whole left

/-- Going on from a left operand comes to the same if reading with less depth does.  The induction is on the
depth of the first reading; the second one may have more, since its list is longer. -/
theorem extend_continues {us : List Term} : ∀ n m : Nat, n ≤ m →
    (∀ k k', k < n → k ≤ k' → ContinuesReader us (standard.expr k) (standard.expr k')) →
    ∀ (p : Int) (left : Term) (ts : List Term), 0 ≤ p →
      Continues us (standard.extend n p left ts) (standard.extend m p left (ts ++ us)) := by
  intro n
  induction n with
  | zero => intro m _ _ p left ts _; exact .atEnd .deep
  | succ n ih =>
    intro m hm hf p left ts hp
    obtain ⟨m, rfl⟩ : ∃ k, m = k + 1 := ⟨m - 1, by omega⟩
    have hnm : n ≤ m := by omega
    have hext : ∀ left ts, Continues us (standard.extend n p left ts) (standard.extend m p left (ts ++ us)) :=
      fun left ts => ih m hnm (fun k k' hk => hf k k' (by omega)) p left ts hp
    cases ts with
    | nil => exact .atEnd (extend_nil_atEnd _ left hp)
    | cons tok ts =>
      simp only [List.cons_append, OperatorTable.extend]
      cases hq : standard.power tok with
      | error e => exact .refused (refusal_of_power hq)
      | ok q =>
        by_cases hpq : p < q
        · simp only [bind, Except.bind, if_pos hpq]
          exact (join_continues (hf n m (by omega) hnm) tok left).bind
            (fun t => extend_nil_atEnd n t hp) fun t tok' rest => hext t (tok' :: rest)
        · simp only [bind, Except.bind, if_neg hpq]
          exact .left left tok ts

/-- More tokens and more depth change nothing of what was read before the end of the tokens. -/
theorem expr_continues (us : List Term) (n m : Nat) (h : n ≤ m) :
    ContinuesReader us (standard.expr n) (standard.expr m) := by
  induction n using Nat.strongRecOn generalizing m with
  | ind n ih =>
    intro p ts hp
    cases n with
    | zero => exact .atEnd .deep
    | succ n =>
      obtain ⟨m, rfl⟩ : ∃ k, m = k + 1 := ⟨m - 1, by omega⟩
      cases ts with
      | nil => exact .atEnd .short
      | cons tok ts =>
        rw [List.cons_append, expr_cons, expr_cons]
        have hext : ∀ left ts,
            Continues us (standard.extend n p left ts) (standard.extend m p left (ts ++ us)) :=
          fun left ts => extend_continues n m (by omega) (fun k k' hk hk' => ih k (by omega) k' hk')
            p left ts hp
        exact (start_continues (ih n (by omega) m (by omega)) tok).bind
          (fun t => extend_nil_atEnd n t hp) fun t tok' rest => hext t (tok' :: rest)

/-! ## 3. What can be completed

`Begins ts e` says that `ts` are the first tokens of the tree `e`, which respects the powers.  A reader is
*fair* if all its failures for want of a token are at the start of such a tree (`FairReader`).  That the
reader is fair is shown along the definition of the reader, and with the invariant of soundness: what has been
read is a tree before which all open readings have stopped.

What is supplied is a name for an operand that is missing, signs that close, and the other half of a choice. -/

/-- The tokens of expressions: operands by themselves and the signs of the table. -/
def isToken : Term → Bool
  | .symbol s => (standard.find? s).isSome
  | tok => isAtom tok

theorem isToken_closing (b : Bracket) : isToken (.symbol b.closing) = true := by cases b <;> rfl

/-- The tokens `ts` are the first ones of the tree, which respects the powers.  For each constructor of trees
there is a lemma that puts a sign before, or an operand and a sign, and supplies what is missing at the end.
-/
structure Begins (ts : List Term) (e : OpTree) : Prop where
  yield : ∃ us, (∀ u ∈ us, isToken u = true) ∧ ts ++ us = e.yield
  respects : e.Respects

namespace Begins

variable {ts : List Term} {e left : OpTree}

theorem of_respects (h : e.Respects) : Begins e.yield e :=
  ⟨⟨[], by simp, by simp⟩, h⟩

/-- An operand that is missing altogether. -/
def operand : OpTree := .atom (.word .id "x") rfl

theorem nil : Begins [] operand := ⟨⟨[.word .id "x"], by simp [isToken, isAtom, Term.word], rfl⟩, trivial⟩

theorem before (o : Opener) (ha : e.Above o.power) (h : Begins ts e) :
    Begins (.symbol o.sign :: ts) (.before o e) := by
  obtain ⟨us, hus, hy⟩ := h.yield
  exact ⟨⟨us, hus, by simp [OpTree.yield, ← hy]⟩, ha, h.respects⟩

theorem enclosed (b : Bracket) (h : Begins ts e) :
    Begins (.symbol b.opening :: ts) (.enclosed b e) := by
  obtain ⟨us, hus, hy⟩ := h.yield
  refine ⟨⟨us ++ [.symbol b.closing], ?_, by simp [OpTree.yield, ← hy]⟩, e.above_zero, h.respects⟩
  simp only [List.forall_mem_append, List.forall_mem_singleton]
  exact ⟨hus, isToken_closing b⟩

theorem between (o : Joiner) (hl : left.Respects) (hy : left.Yields o.power) (ha : e.Above o.rightPower)
    (h : Begins ts e) : Begins (left.yield ++ .symbol o.sign :: ts) (.between o left e) := by
  obtain ⟨us, hus, hyield⟩ := h.yield
  exact ⟨⟨us, hus, by simp [OpTree.yield, ← hyield]⟩, hy, ha, hl, h.respects⟩

theorem index (hl : left.Respects) (hy : left.Yields OperatorTable.indexPower) (h : Begins ts e) :
    Begins (left.yield ++ .symbol "[" :: ts) (.index left e) := by
  obtain ⟨us, hus, hyield⟩ := h.yield
  refine ⟨⟨us ++ [.symbol "]"], ?_, by simp [OpTree.yield, ← hyield]⟩, hy, e.above_zero, hl, h.respects⟩
  simp only [List.forall_mem_append, List.forall_mem_singleton]
  exact ⟨hus, isToken_closing .square⟩

/-- The tokens end before the `else` of a choice. -/
theorem condition (hl : left.Respects) (hy : left.Yields choicePower) (h : Begins ts e) :
    Begins (left.yield ++ .symbol "if" :: ts) (.choice left e operand) := by
  obtain ⟨us, hus, hyield⟩ := h.yield
  refine ⟨⟨us ++ .symbol "else" :: operand.yield, ?_, by simp [OpTree.yield, ← hyield]⟩, hy, e.above_zero,
    operand.above_zero, hl, h.respects, trivial⟩
  simp only [List.forall_mem_append, List.forall_mem_cons]
  exact ⟨hus, rfl, List.forall_mem_singleton.2 rfl⟩

/-- The tokens end after the `else` of a choice. -/
theorem choice {c : OpTree} (hl : left.Respects) (hy : left.Yields choicePower) (hc : c.Respects)
    (h : Begins ts e) :
    Begins (left.yield ++ .symbol "if" :: (c.yield ++ .symbol "else" :: ts)) (.choice left c e) := by
  obtain ⟨us, hus, hyield⟩ := h.yield
  exact ⟨⟨us, hus, by simp [OpTree.yield, ← hyield]⟩, hy, c.above_zero, e.above_zero, hl, hc, h.respects⟩

end Begins

/-- On fewer than `n` tokens the reader fails only because of a token that cannot stand where it stands, or
because it misses one and the tokens are the first ones of a tree. -/
def FairReader (n : Nat) (f : ExprReader) : Prop :=
  ∀ (p : Int) (ts : List Term) (err : Error), 0 ≤ p → ts.length < n → f p ts = .error err →
    Refusal err ∨ err = .endOfTokens ∧ ∃ e : OpTree, e.Above p ∧ Begins ts e

/-- A sign that is asked for is missing because of another token or because there is no token. -/
theorem expect_eq_error {s : String} (hs : s.isEmpty = false) {ts : List Term} {err : Error}
    (h : OperatorTable.expect s ts = .error err) : Refusal err ∨ err = .endOfTokens ∧ ts = [] := by
  cases ts with
  | nil =>
    cases h
    exact .inr ⟨rfl, rfl⟩
  | cons tok ts => exact .inl (refusal_of_expect hs h)

section Fair

variable {f : ExprReader} {n : Nat} {ts : List Term} {err : Error}

/-- An operand and the sign after it: if one of them is missing, what is there is the start of a tree.  If the
operand is complete and the sign is there too, then the failure is one of what is done after that. -/
theorem fair_followed (hs : SoundReader f) (hf : FairReader n f) (hn : ts.length < n) {s : String}
    (hempty : s.isEmpty = false) {k : Term × List Term → List Term → Except Error (Term × List Term)}
    (h : (f 0 ts >>= fun x => OperatorTable.expect s x.2 >>= k x) = .error err) :
    Refusal err ∨ (err = .endOfTokens ∧ ∃ e : OpTree, Begins ts e) ∨
      ∃ (e : OpTree) (rest : List Term), e.Respects ∧ ts = e.yield ++ .symbol s :: rest ∧
        k (e.term, .symbol s :: rest) rest = .error err := by
  rcases error_of_bind h with h | ⟨⟨t, mid⟩, hok, h⟩
  · rcases hf _ _ _ (Int.le_refl 0) hn h with he | ⟨rfl, e, -, he⟩
    · exact .inl he
    · exact .inr (.inl ⟨rfl, e, he⟩)
  obtain ⟨e, rfl, ⟨hyield, he, -⟩, -, -⟩ := hs _ _ _ _ (Int.le_refl 0) hok
  rcases error_of_bind h with h | ⟨rest, hrest, h⟩
  · rcases expect_eq_error hempty h with herr | ⟨rfl, rfl⟩
    · exact .inl herr
    · rw [List.append_nil] at hyield
      exact .inr (.inl ⟨rfl, e, hyield ▸ .of_respects he⟩)
  · obtain rfl : mid = .symbol s :: rest := expect_eq_ok hempty hrest
    exact .inr (.inr ⟨e, rest, he, hyield.symm, h⟩)

/-- What fails at the start of an expression can be made a tree that has no sign with a left operand on
top. -/
theorem start_fair (hs : SoundReader f) (hf : FairReader n f) (hn : ts.length < n) {tok : Term}
    (h : standard.start f tok ts = .error err) :
    Refusal err ∨ err = .endOfTokens ∧ ∃ e : OpTree, e.leftSpine = [] ∧ Begins (tok :: ts) e := by
  rcases start_cases tok with ⟨e, he, hstart⟩ | ⟨t, hstart⟩ | ⟨o, rfl, hstart⟩ | ⟨b, rfl, hstart⟩
  all_goals rw [hstart] at h
  · cases h
    exact .inl he
  · cases h
  · rcases error_of_bind h with hop | ⟨x, -, hmade⟩
    · rcases hf _ _ _ o.power_nonneg hn hop with he | ⟨rfl, e, ha, he⟩
      · exact .inl he
      · exact .inr ⟨rfl, .before o e, rfl, he.before o ha⟩
    · cases hmade
  · rcases fair_followed hs hf hn (by cases b <;> rfl) h with he | ⟨rfl, e, he⟩ | ⟨e, rest, -, -, hmade⟩
    · exact .inl he
    · exact .inr ⟨rfl, .enclosed b e, rfl, he.enclosed b⟩
    · cases hmade

/-- What fails after a left operand can be made a tree with the sign on top. -/
theorem join_fair (hs : SoundReader f) (hf : FairReader n f) (hn : ts.length < n) {tok : Term} {q : Int}
    {left : OpTree} (hl : left.Respects) (hy : left.Yields q) (hq : standard.power tok = .ok q)
    (h : standard.join f tok left.term ts = .error err) :
    Refusal err ∨ err = .endOfTokens ∧ ∃ e : OpTree, e.leftSpine = q :: left.leftSpine ∧
      Begins (left.yield ++ tok :: ts) e := by
  rcases join_cases tok with ⟨e, he, hjoin⟩ | ⟨o, rfl, hjoin⟩ | ⟨rfl, hjoin⟩ | ⟨rfl, hjoin⟩ | ⟨rfl, hjoin⟩
  all_goals rw [hjoin] at h
  · cases h
    exact .inl he
  · obtain rfl : o.power = q := Except.ok.inj ((power_joiner o).symm.trans hq)
    rcases error_of_bind h with hop | ⟨⟨right, mid⟩, -, hmade⟩
    · rcases hf _ _ _ o.rightPower_nonneg hn hop with he | ⟨rfl, e, ha, he⟩
      · exact .inl he
      · exact .inr ⟨rfl, .between o left e, rfl, he.between o hl hy ha⟩
    · obtain ⟨made, hok⟩ := exists_make_joiner o left.term right
      simp only [hok] at hmade
      cases hmade
  · cases h
  · obtain rfl : OperatorTable.indexPower = q := Except.ok.inj (power_index.symm.trans hq)
    rcases fair_followed hs hf hn rfl h with he | ⟨rfl, e, he⟩ | ⟨e, rest, -, -, hmade⟩
    · exact .inl he
    · exact .inr ⟨rfl, .index left e, rfl, he.index hl hy⟩
    · cases hmade
  · obtain rfl : choicePower = q := Except.ok.inj (power_choice.symm.trans hq)
    rcases fair_followed hs hf hn rfl h with he | ⟨rfl, e, he⟩ | ⟨c, rest, hc, rfl, hother⟩
    · exact .inl he
    · exact .inr ⟨rfl, .choice left e Begins.operand, rfl, he.condition hl hy⟩
    have hlen : rest.length < n := by
      simp only [List.length_append, List.length_cons] at hn
      omega
    rcases error_of_bind hother with hother | ⟨x, -, hmade⟩
    · rcases hf _ _ _ (Int.le_refl 0) hlen hother with he | ⟨rfl, e, -, he⟩
      · exact .inl he
      · exact .inr ⟨rfl, .choice left c e, rfl, he.choice hl hy hc⟩
    · cases hmade

end Fair

/-- A sign gives back none of the tokens that it took. -/
theorem join_length {f : ExprReader} (hs : SoundReader f) {tok left t : Term} {ts rest : List Term}
    (h : standard.join f tok left ts = .ok (t, rest)) : rest.length ≤ ts.length := by
  have hf : ∀ {p ts x}, 0 ≤ p → f p ts = .ok x → x.2.length ≤ ts.length := by
    intro p ts x hp hx
    obtain ⟨e, -, he, -, -⟩ := hs p ts x.1 x.2 hp hx
    simp [← he.yield]
  rcases join_cases tok with ⟨e, -, hjoin⟩ | ⟨o, -, hjoin⟩ | ⟨-, hjoin⟩ | ⟨-, hjoin⟩ | ⟨-, hjoin⟩
  all_goals rw [hjoin] at h
  · cases h
  · obtain ⟨x, hx, h⟩ := ok_of_bind h
    obtain ⟨made, -, h⟩ := ok_of_bind h
    cases h
    exact hf o.rightPower_nonneg hx
  · cases h
    exact Nat.le_refl _
  · obtain ⟨x, hx, h⟩ := ok_of_bind h
    obtain ⟨rest', hc, h⟩ := ok_of_bind h
    cases h
    have hlen := hf (Int.le_refl 0) hx
    rw [expect_eq_ok rfl hc, List.length_cons] at hlen
    omega
  · obtain ⟨x, hx, h⟩ := ok_of_bind h
    obtain ⟨rest', hc, h⟩ := ok_of_bind h
    obtain ⟨y, hy, h⟩ := ok_of_bind h
    cases h
    have hlen := hf (Int.le_refl 0) hx
    have hlen' := hf (Int.le_refl 0) hy
    rw [expect_eq_ok rfl hc, List.length_cons] at hlen
    omega

/-- Going on from a left operand fails for no other reason if reading with less depth does not.  The next sign
takes the left operand, so by induction the tokens after it are the start of a tree, and the left operand with
the sign on top of it is again a left operand that all open readings have stopped before. -/
theorem extend_fair : ∀ n : Nat, (∀ m < n, FairReader m (standard.expr m)) →
    ∀ (p : Int) (left : OpTree) (ts : List Term) (err : Error), 0 ≤ p → ts.length < n →
    left.Respects → left.Above p → (∀ q ∈ left.rightSpine, Stops q ts) →
    standard.extend n p left.term ts = .error err →
    Refusal err ∨ err = .endOfTokens ∧ ∃ e : OpTree, e.Above p ∧ Begins (left.yield ++ ts) e := by
  intro n
  induction n with
  | zero => intro _ p left ts err _ hn; omega
  | succ n ih =>
    intro hf p left ts err hp hn hl ha hs h
    cases ts with
    | nil =>
      simp only [OperatorTable.extend, if_neg (Int.not_lt.2 hp)] at h
      cases h
    | cons tok ts =>
      simp only [List.length_cons] at hn
      rcases error_of_bind h with h | ⟨q, hq, h⟩
      · exact .inl (refusal_of_power h)
      by_cases hpq : p < q
      · rw [if_pos hpq] at h
        have hy := OpTree.yields_of_stops hs hq
        rcases error_of_bind h with h | ⟨⟨t, mid⟩, hjoin, h⟩
        · rcases join_fair (expr_sound n) (hf n (by omega)) (by omega) hl hy hq h with
            he | ⟨rfl, e, hspine, he⟩
          · exact .inl he
          · exact .inr ⟨rfl, e, OpTree.above_of_leftSpine_cons hspine hpq ha, he⟩
        · have hmid := join_length (expr_sound n) hjoin
          obtain ⟨e, rfl, hspine, he⟩ := join_sound (expr_sound n) hl hy hq hjoin
          have hae := OpTree.above_of_leftSpine_cons hspine hpq ha
          rw [← he.yield]
          exact ih (fun m hm => hf m (by omega)) p e mid err hp (by omega) he.respects hae he.spine h
      · rw [if_neg hpq] at h
        cases h

/-- With a depth above the number of tokens, the reader fails only because of a token that cannot stand where
it stands, or because more tokens are needed.  Each level takes a token, so the depth stays above the number
of those that are left, and an error about the depth does not come up. -/
theorem expr_fair (n : Nat) : FairReader n (standard.expr n) := by
  induction n using Nat.strongRecOn with
  | ind n ih =>
    intro p ts err hp hn h
    cases n with
    | zero => omega
    | succ n =>
      cases ts with
      | nil =>
        cases h
        exact .inr ⟨rfl, Begins.operand, OpTree.above_of_leftSpine_nil rfl, .nil⟩
      | cons tok ts =>
        simp only [List.length_cons] at hn
        rw [expr_cons] at h
        rcases error_of_bind h with h | ⟨⟨t, mid⟩, hstart, h⟩
        · rcases start_fair (expr_sound n) (ih n (by omega)) (by omega) h with
            he | ⟨rfl, e, hspine, he⟩
          · exact .inl he
          · exact .inr ⟨rfl, e, OpTree.above_of_leftSpine_nil hspine, he⟩
        · obtain ⟨e, rfl, hspine, he⟩ := start_sound (expr_sound n) hstart
          have hlen := congrArg List.length he.yield
          have hpos := e.length_leftSpine_lt
          simp only [List.length_append, List.length_cons] at hlen
          rw [← he.yield]
          exact extend_fair n (fun m hm => ih m (by omega)) p e mid err hp (by omega) he.respects
            (OpTree.above_of_leftSpine_nil hspine) he.spine h

/-! ## 4. Lists that are not read

The two halves are put together.  A list that misses a token has a completion by section 3; a list with a
completion cannot have failed for good by section 2, as an error of that kind would still be there. -/

theorem read_eq (ts : List Term) :
    standard.read ts = standard.expr (ts.length + 2) 0 ts >>= fun x =>
      if x.2.isEmpty then .ok x.1 else .error .leftover := rfl

/-- A list that ends too early can be completed: by the tokens that the tree of which it is the start has and
the list does not.  That this tree is what is read then is completeness. -/
theorem exists_completion {ts : List Term} (h : standard.read ts = .error .endOfTokens) :
    ∃ us, (∀ u ∈ us, isToken u = true) ∧ ∃ t, standard.read (ts ++ us) = .ok t := by
  rw [read_eq] at h
  rcases error_of_bind h with h | ⟨⟨t, rest⟩, -, h⟩
  · rcases expr_fair _ _ _ _ (Int.le_refl 0) (by omega) h with he | ⟨-, e, -, ⟨us, hus, hy⟩, he⟩
    · rcases he with he | he <;> cases he
    · exact ⟨us, hus, e.term, by rw [hy, OpTree.read_yield he]⟩
  · cases rest <;> cases h

/-- Every other error is about tokens that are there. -/
theorem read_eq_error {ts : List Term} {e : Error} (h : standard.read ts = .error e) :
    e = .endOfTokens ∨ e = .leftover ∨ Refusal e := by
  rw [read_eq] at h
  rcases error_of_bind h with h | ⟨⟨t, rest⟩, -, h⟩
  · rcases expr_fair _ _ _ _ (Int.le_refl 0) (by omega) h with he | ⟨rfl, -⟩
    · exact .inr (.inr he)
    · exact .inl rfl
  · cases rest with
    | nil => cases h
    | cons tok rest =>
      cases h
      exact .inr (.inl rfl)

/-- An error about tokens that are there stays when more tokens follow. -/
theorem read_append_eq_error {ts : List Term} {e : Error} (h : standard.read ts = .error e)
    (hne : e ≠ .endOfTokens) (us : List Term) : standard.read (ts ++ us) = .error e := by
  have hcont := expr_continues us (ts.length + 2) ((ts ++ us).length + 2) (by simp) 0 ts (Int.le_refl 0)
  have hdeep : standard.expr (ts.length + 2) 0 ts ≠ .error .recursion := by
    intro hrec
    rcases expr_fair _ _ _ _ (Int.le_refl 0) (by omega) hrec with (he | he) | ⟨he, -⟩ <;> cases he
  rw [read_eq] at h ⊢
  generalize standard.expr (ts.length + 2) 0 ts = x at h hcont hdeep
  generalize standard.expr ((ts ++ us).length + 2) 0 (ts ++ us) = y at hcont ⊢
  cases hcont with
  | atEnd hx =>
    cases hx with
    | short => exact absurd (Except.error.inj h).symm hne
    | deep => exact absurd rfl hdeep
    | whole t => cases h
  | refused _ => exact h
  | left t tok rest => exact h

/-- **Incomplete input and wrong input.**  The reader misses a token at the end exactly if the tokens are
not an expression but the start of one.  Any other error is about a token that cannot stand where it
stands or about tokens after the expression, and every list that begins with these tokens gives the same
error. -/
theorem read_eq_endOfTokens_iff (ts : List Term) :
    (standard.read ts = .error .endOfTokens ↔
      (∀ t, standard.read ts ≠ .ok t) ∧
        ∃ us, (∀ u ∈ us, isToken u = true) ∧ ∃ t, standard.read (ts ++ us) = .ok t) ∧
    ∀ e, standard.read ts = .error e → e ≠ .endOfTokens →
      (e.fault = .noAttribute ∨ e.fault = .wrongToken ∨ e = .leftover) ∧
        ∀ us, standard.read (ts ++ us) = .error e := by
  refine ⟨⟨?_, ?_⟩, ?_⟩
  · intro h
    refine ⟨?_, exists_completion h⟩
    intro t ht
    rw [h] at ht
    cases ht
  · rintro ⟨hno, us, -, t, ht⟩
    cases hread : standard.read ts with
    | ok t => exact absurd hread (hno t)
    | error e =>
      by_cases he : e = .endOfTokens
      · rw [he]
      · rw [read_append_eq_error hread he us] at ht
        cases ht
  · intro e h hne
    refine ⟨?_, read_append_eq_error h hne⟩
    rcases read_eq_error h with he | he | he | he
    · exact absurd he hne
    · exact .inr (.inr he)
    · exact .inl he
    · exact .inr (.inl he)

/-- The start of a sum in brackets, and two names in brackets. -/
theorem read_eq_endOfTokens_iff_brackets :
    let x : Term := .word .id "x"
    let openSum : List Term := [.symbol "(", x, .symbol "+"]
    let twoNames : List Term := [.symbol "(", x, x]
    (∃ us, (∀ u ∈ us, isToken u = true) ∧ ∃ t, standard.read (openSum ++ us) = .ok t) ∧
      ∀ us, standard.read (twoNames ++ us) = .error (.lacks (.leaf (.word .id)) "sym") :=
  ⟨((read_eq_endOfTokens_iff _).1.1 rfl).2,
    ((read_eq_endOfTokens_iff _).2 _ rfl (by intro h; cases h)).2⟩

end Precedence

end Offside
