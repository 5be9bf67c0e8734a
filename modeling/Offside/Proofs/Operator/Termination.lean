import Offside.Operator.Reader
/-!
# Reading by precedence ends

`OperatorTable.expr` is given a depth, and one that it cannot use up.  That it cannot is the statement of this
file: reading without any bound ends for every table and all tokens, with the same answer, and asks for a token
at most two times more often than there are tokens (`read_ends`).

The other reader (`Stream.expr` and `Stream.loop`) takes its tokens from a stream, which counts how often it is
asked.  If its depth is used up it has no answer at all, so that reading without any bound ends if the answer is
the same at every depth from some on (`EndsWithin`).  The powers may be any numbers.  If the one that is read
for is below 0, the mark at the end of the tokens seems to bind stronger, and the loop goes on; but the mark
cannot be taken, so asking for it is the last thing that happens.

Both readers are compared step by step (`Tracks`).  As long as nothing goes wrong, a token is gone for each
time that the stream was asked, so the sum of the two numbers stays the same; the one time when none is gone
is the last.
-/

namespace Offside

namespace OperatorTable

/-! ## 1. Reading from a stream

The reader that `parse` is made of: one token is held in front, `shift` moves on, and asking for a token
behind the mark at the end fails.  The handlers are those of `start` and `join`, but what they read comes from
the stream. -/

/-- The tokens ahead, before the mark at their end, and how often the stream was asked to move on. -/
structure Stream where
  ahead : List Term
  shifts : Nat

namespace Stream

/-- What is read from a stream: a value or an error, and the stream after it; nothing if the
depth is used up. -/
abbrev Reading (α : Type) := ExceptT Error (StateT Stream Option) α

/-- Puts what comes first in front. -/
def begin : Reading Unit := modify fun s => { s with shifts := s.shifts + 1 }

/-- Takes the token in front.  The mark at the end cannot be taken, as nothing comes after it. -/
def shift : Reading Term := do
  let s ← get
  set { s with shifts := s.shifts + 1 }
  match s.ahead with
  | [] => throw .endOfTokens
  | tok :: rest =>
    set { ahead := rest, shifts := s.shifts + 1 : Stream }
    return tok

/-- Takes a token, which must be the given sign.  The empty sign stands for any token. -/
def advance (sign : String) : Reading Unit := do
  let tok ← shift
  if sign.isEmpty then return
  else
    match tok with
    | .symbol s => if s = sign then return else throw (.expected sign)
    | _ => throw (.ofMissing tok "sym")

/-- What is too deep has no answer. -/
def unended {α : Type} : Reading α := fun _ => none

variable (t : OperatorTable)

/-- How strongly the token in front binds to its left; the mark at the end does so with power 0. -/
def frontPower : Reading Int := do
  match (← get).ahead with
  | [] => return 0
  | tok :: _ => t.power tok

section

variable (expr : Int → Reading Term)

/-- What a token is at the start of an expression; `expr` reads what follows. -/
def opening (tok : Term) : Reading Term :=
  match tok with
  | .leaf _ _ _ => return tok
  | .node (.phrase .block) _ _ => return tok
  | .symbol s =>
    match (t.find? s).bind (·.opening) with
    | some (.before p m) => do
      let arg ← expr p
      m.make [arg]
    | some (.alone m) => m.make [.text s]
    | some (.enclosing close m) => do
      let arg ← expr 0
      advance close
      m.make [arg]
    | none => throw (.lacks (.symbol s) "nud")
  | _ => throw (.ofMissing tok "nud")

/-- What a token makes of a left operand; `expr` reads what follows. -/
def joining (tok left : Term) : Reading Term :=
  match tok with
  | .symbol s =>
    match t.find? s with
    | some ⟨p, _, some (.left m)⟩ => do
      let right ← expr p
      m.make [left, right]
    | some ⟨p, _, some (.right m)⟩ => do
      let right ← expr (p - 1)
      m.make [left, right]
    | some ⟨_, _, some (.after m)⟩ => m.make [left]
    | some ⟨_, _, some (.index close m)⟩ => do
      let right ← expr 0
      match close with
      | some c => if c.isEmpty then pure () else advance c
      | none => pure ()
      m.make [left, right]
    | some ⟨_, _, some (.choice m)⟩ => do
      let condition ← expr 0
      advance "else"
      let otherwise ← expr 0
      m.make [condition, left, otherwise]
    | _ => throw (.lacks (.symbol s) "led")
  | _ => throw (.ofMissing tok "led")

end

mutual

/-- Reads an expression up to a sign that binds no stronger than `power`. -/
def expr : (depth : Nat) → (power : Int) → Reading Term
  | 0, _ => unended
  | depth + 1, p => do
    let tok ← shift
    let left ← opening t (expr depth) tok
    loop depth p left

/-- Lets signs that bind stronger than `power` take what has been read as their left side. -/
def loop : (depth : Nat) → (power : Int) → (left : Term) → Reading Term
  | 0, _, _ => unended
  | depth + 1, p, left => do
    if p < (← frontPower t) then
      let tok ← shift
      let left ← joining t (expr depth) tok left
      loop depth p left
    else return left

end

/-- Reads a list of tokens as one expression. -/
def read (depth : Nat) : Reading Term := do
  if t.entries.isEmpty then throw .noOperators
  else
    begin
    let result ← expr t depth 0
    if (← get).ahead.isEmpty then return result else throw .leftover

/-- Without a bound the reading ends: at every depth from some on it gives this answer, and asks for no more than
`most` tokens in all. -/
def EndsWithin {α : Type} (y : (depth : Nat) → Reading α) (s : Stream) (r : Except Error α) (most : Nat) : Prop :=
  ∃ least, ∀ depth, least ≤ depth → ∃ s', (y depth).run.run s = some (r, s') ∧ s'.shifts ≤ most

/-! ## 2. Two readings side by side

`Tracks N toks x y` compares a reading of a list, which gives `x`, with a reading `y` of a stream that has the
same tokens ahead.  The number `N` is the invariant: shifts made so far and tokens ahead together.  Each way
to put readings together keeps it, and only a failure may spend one shift more. -/

variable {t} {N : Nat} {α β : Type}

/-- How a reading from a stream ends, if a reading of the list `toks` gives `x`.  It ends either way.  With a
value the same tokens are left, and with those the number of shifts makes `N`, as it did before; with an
error there may be one shift more. -/
inductive Ends (N : Nat) (toks : List Term) :
    (x : Except Error (α × List Term)) → Option (Except Error α × Stream) → Prop where
  | value {a : α} {rest : List Term} {shifts : Nat} (hrest : rest.length ≤ toks.length)
      (hshifts : shifts + rest.length = N) : Ends N toks (.ok (a, rest)) (some (.ok a, ⟨rest, shifts⟩))
  | error {e : Error} {s : Stream} (hshifts : s.shifts ≤ N + 1) : Ends N toks (.error e) (some (.error e, s))

theorem Ends.mono {toks toks' : List Term} {x : Except Error (α × List Term)}
    {y : Option (Except Error α × Stream)} (h : Ends N toks x y) (hle : toks.length ≤ toks'.length) :
    Ends N toks' x y := by
  cases h with
  | value hrest hshifts => exact .value (Nat.le_trans hrest hle) hshifts
  | error hshifts => exact .error hshifts

theorem Ends.exists_eq {toks : List Term} {x : Except Error (α × List Term)}
    {y : Option (Except Error α × Stream)} (h : Ends N toks x y) :
    ∃ s, y = some (x.map (·.1), s) ∧ s.shifts ≤ N + 1 := by
  cases h with
  | @value a rest shifts _ hshifts =>
    have hle : shifts ≤ N + 1 := by omega
    exact ⟨⟨rest, shifts⟩, rfl, hle⟩
  | @error e s hshifts => exact ⟨s, rfl, hshifts⟩

/-- With the tokens `toks` ahead, `y` ends as `x` does. -/
def Tracks (N : Nat) (toks : List Term) (x : Except Error (α × List Term)) (y : Reading α) : Prop :=
  ∀ shifts, shifts + toks.length = N → Ends N toks x (y.run.run ⟨toks, shifts⟩)

namespace Tracks

variable {toks rest : List Term}

/-- If two readings track each other, and so do their continuations on whatever tokens are left, then the
compositions do.  The continuations need only be compared on lists that are no longer than the first one,
which is what lets an induction on the tokens go through a bind. -/
theorem bind {x : Except Error (α × List Term)} {y : Reading α}
    {f : α × List Term → Except Error (β × List Term)} {g : α → Reading β} (h : Tracks N toks x y)
    (hf : ∀ a rest, rest.length ≤ toks.length → Tracks N rest (f (a, rest)) (g a)) :
    Tracks N toks (x >>= f) (y >>= g) := by
  intro shifts hN
  have hy := h shifts hN
  generalize hz : y.run.run ⟨toks, shifts⟩ = z at hy
  have hrun : (y >>= g).run.run ⟨toks, shifts⟩ =
      z.bind fun r => (ExceptT.bindCont g r.1).run r.2 := by
    rw [← hz]
    rfl
  rw [hrun]
  cases hy with
  | @value a rest shifts' hrest hshifts => exact (hf a rest hrest shifts' hshifts).mono hrest
  | error hshifts => exact .error hshifts

theorem pure (a : α) : Tracks N toks (.ok (a, toks)) (Pure.pure a : Reading α) :=
  fun _ hN => .value (Nat.le_refl _) hN

theorem throw (e : Error) : Tracks N toks (.error e) (MonadExcept.throw e : Reading α) := by
  intro shifts hN
  have hle : shifts ≤ N + 1 := by omega
  exact .error hle

/-- Making a term takes no token. -/
theorem make (m : Maker) (args : List Term) :
    Tracks N toks (do return (← m.make args, toks)) (liftM (m.make args) : Reading Term) := by
  cases m.make args with
  | ok v => exact pure v
  | error e => exact throw e

/-- The mark at the end is never taken. -/
theorem shift_nil (g : Term → Reading α) : Tracks N [] (.error .endOfTokens) (shift >>= g) := by
  intro shifts hN
  refine .error (s := ⟨[], shifts + 1⟩) ?_
  exact Nat.succ_le_succ (Nat.le_of_eq hN)

/-- A token that is taken is one shift more and one token less, so the sum is still `N`. -/
theorem shift_cons {tok : Term} {x : Except Error (α × List Term)} {g : Term → Reading α}
    (h : Tracks N rest x (g tok)) : Tracks N (tok :: rest) x (shift >>= g) := by
  intro shifts hN
  have hN' : shifts + 1 + rest.length = N := by
    rw [← hN, List.length_cons]
    omega
  exact (h (shifts + 1) hN').mono (Nat.le_succ _)

/-- Taking a sign that must be there. -/
theorem advance {sign : String} {f : List Term → Except Error (α × List Term)} {g : Reading α}
    (hf : ∀ rest, rest.length ≤ toks.length → Tracks N rest (f rest) g) :
    Tracks N toks (expect sign toks >>= f) (Stream.advance sign >>= fun _ => g) := by
  rw [Stream.advance, bind_assoc]
  cases toks with
  | nil => exact shift_nil _
  | cons tok rest =>
    refine shift_cons ?_
    have hrest : Tracks N rest (f rest) g := hf rest (Nat.le_succ _)
    simp only [expect]
    by_cases hsign : sign.isEmpty = true
    · rw [if_pos hsign, if_pos hsign]
      exact hrest
    · rw [if_neg hsign, if_neg hsign]
      cases tok with
      | symbol s =>
        by_cases hs : s = sign
        · simp only [if_pos hs]
          exact hrest
        · simp only [if_neg hs]
          exact throw _
      | _ => exact throw _

theorem frontPower_nil {x : Except Error (α × List Term)} {g : Int → Reading α} (h : Tracks N [] x (g 0)) :
    Tracks N [] x (frontPower t >>= g) := h

/-- To ask for the power of the next token takes nothing from the stream. -/
theorem frontPower_cons {tok : Term} {f : Int → Except Error (α × List Term)} {g : Int → Reading α}
    (h : ∀ q, Tracks N (tok :: rest) (f q) (g q)) :
    Tracks N (tok :: rest) (t.power tok >>= f) (frontPower t >>= g) := by
  intro shifts hN
  have hrun : (frontPower t >>= g).run.run ⟨tok :: rest, shifts⟩ =
      (liftM (t.power tok) >>= g : Reading α).run.run ⟨tok :: rest, shifts⟩ := rfl
  rw [hrun]
  cases t.power tok with
  | ok q => exact h q shifts hN
  | error e => exact throw (α := α) e shifts hN

end Tracks

/-! ## 3. The handlers

The handlers call `expr` on what is ahead, so they track each other if the two `expr` do, for all lists that
are no longer.  There is one case for each kind of entry in a table. -/

/-- `y` reads from a stream what `expr` reads of a list, for all lists that are no longer than `toks`. -/
def TracksUpTo (N : Nat) (toks : List Term) (expr : ExprReader) (y : Int → Reading Term) : Prop :=
  ∀ p rest, rest.length ≤ toks.length → Tracks N rest (expr p rest) (y p)

section

variable {toks : List Term} {expr : ExprReader} {y : Int → Reading Term} (h : TracksUpTo N toks expr y)

include h

/-- **A token at the start of an expression**, by its role.  An operand that is asked for is read from the
tokens after it, of which there are fewer; then maybe a closing sign. -/
theorem tracks_opening (tok : Term) : Tracks N toks (t.start expr tok toks) (opening t y tok) := by
  cases tok with
  | leaf => exact .pure _
  | symbol s =>
    simp only [start, opening]
    rcases (t.find? s).bind (·.opening) with _ | r
    · exact .throw _
    · cases r with
      | before p m => exact .bind (h p toks (Nat.le_refl _)) fun arg rest _ => .make m [arg]
      | alone m => exact .make m [.text s]
      | enclosing close m =>
        refine .bind (h 0 toks (Nat.le_refl _)) fun arg rest _ => ?_
        exact .advance fun rest _ => .make m [arg]
  | node k =>
    cases k with
    | phrase ph =>
      cases ph with
      | block => exact .pure _
      | _ => exact .throw _
    | _ => exact .throw _
  | _ => exact .throw _

/-- **A sign after a left operand**, by its role.  After an operand has been read there are not more tokens
left than before, so the next one can be read within the same bounds. -/
theorem tracks_joining (tok left : Term) :
    Tracks N toks (t.join expr tok left toks) (joining t y tok left) := by
  cases tok with
  | symbol s =>
    simp only [join, joining]
    rcases t.find? s with _ | ⟨p, o, _ | r⟩
    · exact .throw _
    · exact .throw _
    · cases r with
      | left m => exact .bind (h p toks (Nat.le_refl _)) fun right rest _ => .make m [left, right]
      | right m => exact .bind (h (p - 1) toks (Nat.le_refl _)) fun right rest _ => .make m [left, right]
      | after m => exact .make m [left]
      | index close m =>
        refine .bind (h 0 toks (Nat.le_refl _)) fun right rest _ => ?_
        rcases close with _ | c
        · exact .make m [left, right]
        · by_cases hc : c.isEmpty = true
          · simp only [if_pos hc]
            exact .make m [left, right]
          · simp only [if_neg hc]
            exact .advance fun rest _ => .make m [left, right]
      | choice m =>
        refine .bind (h 0 toks (Nat.le_refl _)) fun condition rest hrest => ?_
        refine .advance fun rest' hrest' => ?_
        exact .bind (h 0 rest' (Nat.le_trans hrest' hrest)) fun otherwise _ _ =>
          .make m [condition, left, otherwise]
  | _ => exact .throw _

end

/-! ## 4. Whole readings

All that was said about single functions comes together in one induction, and the statements about whole
readings are read off from it.  The number of tokens plus one is a depth that is enough, and the number of
times that the stream is asked is at most the number of tokens plus the shift at the start and the one at the
end. -/

/-- **No depth above the number of tokens is used up**, by neither of the two readers: every call and every
round of the loop takes a token before it goes on.

The induction is on the depth, for both functions at once, since `expr` calls `loop` and `loop` calls `expr`.
A call takes its first token and a round takes the sign it goes on with; both then go on with a list that is
shorter, and for it one level less is still more than its length.  Without a token there is nothing to go on
with: `expr` fails at once, and `loop` either ends or, if the power is below 0, asks for the mark at the end
and fails.  The depths of the two readers need not be the same, and so the answer cannot depend on them. -/
theorem tracks_of_length_lt (t : OperatorTable) (N : Nat) {depth depth' : Nat} {toks : List Term}
    (h : toks.length < depth) (h' : toks.length < depth') :
    (∀ p, Tracks N toks (t.expr depth p toks) (expr t depth' p)) ∧
      ∀ p left, Tracks N toks (t.extend depth p left toks) (loop t depth' p left) := by
  induction depth generalizing depth' toks with
  | zero => cases h
  | succ depth ih =>
    obtain ⟨depth', rfl⟩ : ∃ k, depth' = k + 1 := ⟨depth' - 1, by omega⟩
    have hshorter : ∀ rest : List Term, rest.length < toks.length →
        (∀ p, Tracks N rest (t.expr depth p rest) (expr t depth' p)) ∧
          ∀ p left, Tracks N rest (t.extend depth p left rest) (loop t depth' p left) :=
      fun rest hlt => ih (by omega) (by omega)
    constructor
    · intro p
      rw [expr]
      cases toks with
      | nil => exact .shift_nil _
      | cons tok rest =>
        have hupTo : TracksUpTo N rest (t.expr depth) (expr t depth') :=
          fun p rest' hle => (hshorter rest' (Nat.lt_succ_of_le hle)).1 p
        refine .shift_cons (.bind (tracks_opening hupTo tok) fun left rest' hle => ?_)
        exact (hshorter rest' (Nat.lt_succ_of_le hle)).2 p left
    · intro p left
      rw [loop]
      cases toks with
      | nil =>
        refine .frontPower_nil ?_
        simp only [extend]
        by_cases hp : p < 0
        · rw [if_pos hp, if_pos hp]
          exact .shift_nil _
        · rw [if_neg hp, if_neg hp]
          exact .pure left
      | cons tok rest =>
        have hupTo : TracksUpTo N rest (t.expr depth) (expr t depth') :=
          fun p rest' hle => (hshorter rest' (Nat.lt_succ_of_le hle)).1 p
        refine .frontPower_cons fun q => ?_
        by_cases hp : p < q
        · rw [if_pos hp, if_pos hp]
          refine .shift_cons (.bind (tracks_joining hupTo tok left) fun left rest' hle => ?_)
          exact (hshorter rest' (Nat.lt_succ_of_le hle)).2 p left
        · rw [if_neg hp, if_neg hp]
          exact .pure left

/-- **A whole reading.**  The first shift fetches the first token, before anything is read; the rest is the
reading of one expression with power 0. -/
theorem endsWithin_read (t : OperatorTable) (toks : List Term) :
    EndsWithin (read t) ⟨toks, 0⟩ (t.read toks) (toks.length + 2) := by
  refine ⟨toks.length + 1, fun depth hdepth => ?_⟩
  rw [read, OperatorTable.read]
  by_cases hempty : t.entries.isEmpty = true
  · rw [if_pos hempty, if_pos hempty]
    exact ⟨⟨toks, 0⟩, rfl, Nat.zero_le _⟩
  · rw [if_neg hempty, if_neg hempty]
    have hlength : toks.length < toks.length + 2 := by omega
    have hexpr := (tracks_of_length_lt t (toks.length + 1) hlength hdepth).1 0 1 (Nat.add_comm 1 _)
    have hrun : ∀ g : Term → Reading Term, (begin >>= fun _ => expr t depth 0 >>= g).run.run ⟨toks, 0⟩ =
        ((expr t depth 0).run.run ⟨toks, 1⟩).bind fun r => (ExceptT.bindCont g r.1).run r.2 := fun g => rfl
    rw [hrun]
    generalize (expr t depth 0).run.run ⟨toks, 1⟩ = z at hexpr
    generalize t.expr (toks.length + 2) 0 toks = x at hexpr
    cases hexpr with
    | @value a rest shifts _ hshifts =>
      have hle : shifts ≤ toks.length + 2 := by omega
      cases rest with
      | nil => exact ⟨⟨[], shifts⟩, rfl, hle⟩
      | cons tok rest => exact ⟨⟨tok :: rest, shifts⟩, rfl, hle⟩
    | @error e s hshifts => exact ⟨s, rfl, hshifts⟩

theorem endsWithin_expr (t : OperatorTable) (toks : List Term) (p : Int) (shifts : Nat) :
    EndsWithin (expr t · p) ⟨toks, shifts⟩ ((t.expr (toks.length + 1) p toks).map (·.1))
      (shifts + toks.length + 1) := by
  refine ⟨toks.length + 1, fun depth hdepth => ?_⟩
  have htracks := (tracks_of_length_lt t (shifts + toks.length) (Nat.lt_succ_self _) hdepth).1 p
  exact (htracks shifts rfl).exists_eq

/-- For a power below 0 the loop goes on at the end of the tokens, once. -/
theorem endsWithin_loop {p : Int} (hp : p < 0) (left : Term) (shifts : Nat) :
    EndsWithin (loop t · p left) ⟨[], shifts⟩ (.error .endOfTokens) (shifts + 1) := by
  refine ⟨1, fun depth hdepth => ?_⟩
  have htracks : Tracks shifts [] (t.extend 1 p left []) (loop t depth p left) :=
    (tracks_of_length_lt t shifts (Nat.lt_succ_self 0) hdepth).2 p left
  rw [extend, if_pos hp] at htracks
  exact (htracks shifts rfl).exists_eq

/-- **Reading by precedence ends**, whatever the powers of the table are, and gives what `OperatorTable.read`
gives.  It asks for a token at most two times more often than there are tokens: once to begin, and once at the
end of the tokens.  An expression that is read for any power ends as well, and the loop for a power below 0
asks for the mark at the end of the tokens no more than once. -/
theorem read_ends (t : OperatorTable) (toks : List Term) :
    EndsWithin (read t) ⟨toks, 0⟩ (t.read toks) (toks.length + 2) ∧
      (∀ p shifts, EndsWithin (expr t · p) ⟨toks, shifts⟩ ((t.expr (toks.length + 1) p toks).map (·.1))
        (shifts + toks.length + 1)) ∧
      ∀ p left shifts, p < 0 → EndsWithin (loop t · p left) ⟨[], shifts⟩ (.error .endOfTokens) (shifts + 1) :=
  ⟨endsWithin_read t toks, endsWithin_expr t toks, fun _ left shifts hp => endsWithin_loop hp left shifts⟩

/-- A minus sign that reads its operand for a power below that of the mark at the end. -/
def weakSign : OperatorTable := ofDeclarations [.before "-" (-5) (.phrase .minus)]

theorem read_ends_weakSign :
    EndsWithin (read weakSign) ⟨[.symbol "-", .word .int "1"], 0⟩ (.error .endOfTokens) 4 ∧
      (-5 : Int) < 0 ∧
      EndsWithin (loop weakSign · (-5) (.word .int "1")) ⟨[], 3⟩ (.error .endOfTokens) 4 := by
  have hends := read_ends weakSign [.symbol "-", .word .int "1"]
  have hread : weakSign.read [.symbol "-", .word .int "1"] = .error .endOfTokens := rfl
  rw [hread] at hends
  exact ⟨hends.1, by decide, hends.2.2 (-5) (.word .int "1") 3 (by decide)⟩

end Stream

end OperatorTable

end Offside
