import Offside.Proofs.Comment.Layout
import Offside.Proofs.Comment.Passes
import Offside.Proofs.Layout.Rows
import Offside.Proofs.Program.Outcome
import Offside.Proofs.Token.Seams
/-!
# Comments and the outcome of a program

A line with nothing on it but a comment is put into a text.  It is harmless in two places
(`takesNote`).

* Above a line that begins at the same column, if the text is aligned and the block that the line belongs
  to stands to be evaluated.  Then the comment is a statement of that block, and another one follows.
* At the end of the text and at the first column.  Then the comment is the last statement of the program,
  and its value is not used.

There a program prints what it printed without the comment, and it gives back the same or fails with the
same error (`outcome_of_note`).  An error may show a term, and a comment may be part of that; it is left
out when errors are compared (`Error.strip`).

In other places a comment can do harm.  At the end of a function it is what the function gives back
(`outcomes_lastNote`), among the arms of a `match` it stands where an arm should be, and between a line
and the block that this line opens, at the column of the line, it cuts the block off.
-/

namespace Offside

/-! ## 1. The lines of a text

Lines are cut into tokens one by one, so a line more is its tokens more, at its place between those of the
lines above and below.  A comment line gives two: its column and the comment.  A column is always followed by
a token, and the last token of the lines above is no column; the layout of the next sections relies on both.
-/

namespace Lexer

/-- A line with nothing on it but a comment. -/
def IsNote (l : List Char) : Prop := ∃ t, comment? (l.dropWhile Text.isBlank) = some (t, [])

/-- Whatever kind of comment it is, the token is a comment. -/
theorem comment?_eq_word {cs r : List Char} {t : Term} (h : comment? cs = some (t, r)) :
    ∃ s, t = .word .comment s := by
  unfold comment? at h
  split at h
  · cases h
    exact ⟨_, rfl⟩
  · obtain ⟨_, -, h⟩ := Option.map_eq_some_iff.1 h
    cases h
    exact ⟨_, rfl⟩
  · cases h
    exact ⟨_, rfl⟩
  · cases h

theorem IsNote.line_eq {l : List Char} (h : IsNote l) :
    ∃ s, ∀ n, line n l = .ok [.dent (leadingBlanks l), .word .comment s] := by
  obtain ⟨t, ht⟩ := h
  obtain ⟨s, rfl⟩ := comment?_eq_word ht
  have hscan : scan l = some (.word .comment s, []) := by
    simp only [scan, ht]
    rfl
  exact ⟨s, line_of_cuts (.single hscan) (by simp)⟩

theorem IsNote.ne_nil {l : List Char} (h : IsNote l) : l ≠ [] := by
  rintro rfl
  obtain ⟨t, ht⟩ := h
  cases ht

/-- The tokens of two parts of a text, and of the text with a comment between them.  Lines are cut one by one,
so the comment adds its column and one token.  Only an error would show the number of a line, and there is
none. -/
theorem numberedLines_note {above below : List (List Char)} {l : List Char} {ts us : List Term}
    (hts : numberedLines 1 above = .ok ts) (hus : numberedLines 1 below = .ok us) (hl : IsNote l) :
    numberedLines 1 (above ++ below) = .ok (ts ++ us) ∧
    ∃ s, numberedLines 1 (above ++ l :: below) =
      .ok (ts ++ .dent (leadingBlanks l) :: .word .comment s :: us) := by
  obtain ⟨s, hline⟩ := hl.line_eq
  refine ⟨numberedLines_append hts (numberedLines_renumber hus), s, numberedLines_append hts ?_⟩
  rw [numberedLines_cons _ hl.ne_nil, hline, Except.bind, numberedLines_renumber hus]
  rfl

/-- A line ends with a token. -/
theorem exists_getLast?_cut {rows : List Row} (hne : rows.flatMap Row.cut ≠ []) :
    ∃ t, (rows.flatMap Row.cut).getLast? = some t ∧ Layout.isPlain t = true := by
  rcases List.eq_nil_or_concat rows with rfl | ⟨rows, r, rfl⟩
  · exact absurd rfl hne
  obtain ⟨ts, t, hts⟩ := (List.eq_nil_or_concat r.tokens).resolve_left r.nonempty
  refine ⟨t, List.getLast?_eq_some_iff.2 ⟨rows.flatMap Row.cut ++ .dent (leadingBlanks r.line) :: ts, ?_⟩,
    (r.spaced.isToken t (by simp [hts])).isPlain⟩
  simp [Row.cut, hts]

/-- A line begins with its column and a token. -/
theorem exists_cut_eq_cons {rows : List Row} (hne : rows.flatMap Row.cut ≠ []) :
    ∃ v t ts, rows.flatMap Row.cut = .dent v :: t :: ts ∧ Layout.isPlain t = true := by
  cases rows with
  | nil => exact absurd rfl hne
  | cons r rows =>
    obtain ⟨t, ts, hts⟩ := List.exists_cons_of_ne_nil r.nonempty
    refine ⟨leadingBlanks r.line, t, ts ++ rows.flatMap Row.cut, ?_, ?_⟩
    · simp [Row.cut, hts]
    · exact (r.spaced.isToken t (by simp [hts])).isPlain

end Lexer

/-! ## 2. The place of a comment

The place is described on tokens, and it can be decided.  Whether a comment may be put above a line depends on
the whole text, since alignment does, but of the blocks that are open there only the innermost one is asked
whether it is evaluated. -/

namespace Layout

open Comment (Stage GrowsAll)

/-- The innermost open block stands to be evaluated. -/
def State.hosts : State → Bool
  | .reading _ outer => hosted outer
  | .ended _ _ => false

/-- A comment may be put at this column between these tokens and those. -/
def takesNote (column : Int) (ts us : List Term) : Bool :=
  match us with
  | [] => column = 0 && !ts.isEmpty
  | .dent v :: _ => column = v && aligned (ts ++ us) && (stateAfter (ts ++ [.dent v])).hosts
  | _ => false

/-- **There the comment is one more statement.** -/
theorem growsAll_of_takesNote {rows rows' : List Lexer.Row} {column : Int}
    (h : takesNote column (rows.flatMap Lexer.Row.cut) (rows'.flatMap Lexer.Row.cut) = true) (s : String) :
    ∃ kids kids', tree (rows.flatMap Lexer.Row.cut ++ rows'.flatMap Lexer.Row.cut) = .phrase .block kids ∧
      tree (rows.flatMap Lexer.Row.cut ++
        .dent column :: .word .comment s :: rows'.flatMap Lexer.Row.cut) = .phrase .block kids' ∧
      GrowsAll .laidOut kids kids' := by
  by_cases hne : rows'.flatMap Lexer.Row.cut = []
  · rw [hne, takesNote, Bool.and_eq_true, decide_eq_true_eq, Bool.not_eq_true',
      List.isEmpty_eq_false_iff] at h
    obtain ⟨rfl, hts⟩ := h
    obtain ⟨t, hlast, ht⟩ := Lexer.exists_getLast?_cut hts
    obtain ⟨kids, htree, htree'⟩ := tree_note_last (fun _ => Lexer.dent_nonneg) hlast ht s
    have hnote : Stage.laidOut.IsNote (.phrase .expr [.word .comment s]) := ⟨s, rfl⟩
    refine ⟨kids ++ [], _, ?_, ?_, .note hnote kids []⟩
    · rw [hne, List.append_nil, List.append_nil, htree]
    · rw [hne, htree']
  · obtain ⟨v, t, us, hus, ht⟩ := Lexer.exists_cut_eq_cons hne
    rw [hus, takesNote, Bool.and_eq_true, Bool.and_eq_true, decide_eq_true_eq] at h
    obtain ⟨⟨rfl, haligned⟩, hhosts⟩ := h
    have hhosted : ∀ o outer, stateAfter (rows.flatMap Lexer.Row.cut ++ [.dent column]) =
        .reading o outer → hosted outer = true := by
      intro o outer hs
      rwa [hs] at hhosts
    have hgrows := tree_note ht haligned hhosted s
    obtain ⟨kids, hkids⟩ := exists_tree (rows.flatMap Lexer.Row.cut ++ .dent column :: t :: us)
    rw [hkids] at hgrows
    obtain ⟨kids', hkids', hgrows⟩ := hgrows.growsAll
    exact ⟨kids, kids', hus ▸ hkids, hus ▸ hkids', hgrows⟩

end Layout

/-! ## 3. What can be written

A journal that shows a tree fails if a number in it is too long.  Comments hold text, so a journal fails with
a comment if and only if it fails without. -/

namespace Term

theorem writable_of_isComment {t : Term} (h : t.isComment = true) : t.Writable := by
  unfold isComment at h
  split at h
  · trivial
  · cases h

theorem writableAll_dropIdle (ts : List Term) : WritableAll (dropIdle ts) ↔ WritableAll ts := by
  fun_induction dropIdle ts with
  | case1 t u ts ht ih => simp only [ih, WritableAll, writable_of_isComment ht, true_and]
  | case2 t u ts ht ih => exact and_congr_right fun _ => ih
  | case3 ts => exact Iff.rfl

theorem writable_trim (t : Term) : t.trim.Writable ↔ t.Writable := by
  unfold trim
  split
  · exact writableAll_dropIdle _
  · exact Iff.rfl

theorem writableAll_map_trim (ts : List Term) : WritableAll (ts.map trim) ↔ WritableAll ts := by
  simp only [writableAll_iff, List.forall_mem_map, writable_trim]

theorem writableAll_settle (k : NodeKind) (ts : List Term) : WritableAll (k.settle ts) ↔ WritableAll ts := by
  unfold NodeKind.settle
  split
  · rw [writableAll_append, writableAll_map_trim, ← writableAll_append, List.take_append_drop]
  · split
    · exact writableAll_map_trim ts
    · exact Iff.rfl

mutual

/-- Comments can always be written, so it does not matter that some are left out. -/
theorem writable_strip : ∀ t : Term, t.strip.Writable ↔ t.Writable
  | seq items => writableAll_stripAll items
  | arm _ r => writable_strip r
  | node k _ kids => (writableAll_settle k _).trans (writableAll_stripAll kids)
  | nothing | flag _ | number _ | text _ | dent _ | symbol _ | kind _ | signature _ _ _
  | leaf _ _ _ => Iff.rfl

theorem writableAll_stripAll : ∀ ts : List Term, WritableAll (stripAll ts) ↔ WritableAll ts
  | [] => Iff.rfl
  | t :: ts => and_congr (writable_strip t) (writableAll_stripAll ts)

end

end Term

theorem Scope.isNone_shown?_strip (s : Scope Term) :
    (s.map Term.strip).shown?.isNone = s.shown?.isNone := by
  rw [Bool.eq_iff_iff, Option.isNone_iff_eq_none, Option.isNone_iff_eq_none, shown?_eq_none_iff,
    shown?_eq_none_iff]
  simp [Scope.map, Frame.map, Term.writable_strip]

/-! ## 4. Running a program

Without the journal a run is one evaluation in a world (`playThrough_run_eq`): the statements, and then what
is done about `main` (`conclude`).  Both are computations that `Mirrors` has been shown for. -/

namespace Program

open Eval (Mirrors Mirror Strips mirrors_pure mirrors_throw)

theorem exitValue_strip (t : Term) : exitValue t.strip = exitValue t := by
  cases t <;> rfl

/-- The arguments are texts and numbers, so they are bound alike on both sides. `main` is stripped on one
side, and its body is a place that evaluates a block. -/
theorem mirrors_callMain (args : List String) : Mirrors Eq (callMain args) (callMain args) := by
  have hargs : ∀ b ∈ argumentBindings args, b.2.strip = b.2 := by
    refine List.forall_mem_cons.2 ⟨rfl, List.forall_mem_singleton.2 ?_⟩
    have hargv : (args.map Term.str).map Term.strip = args.map .str := List.map_map
    show Term.action .array (Term.stripAll (args.map .str)) = .action .array (args.map .str)
    rw [Term.stripAll_eq_map, hargv]
  refine ((Eval.mirrors_update_plain hargs).bind fun _ _ _ w => ?_).inNewFrame
  have hget : w.strip.scope.get? "main" = (w.scope.get? "main").map Term.strip := Scope.get?_map _ _ _
  rw [run_get_bind, run_get_bind, hget]
  cases w.scope.get? "main" with
  | none => exact .error (.noKey "main") w
  | some main =>
    refine ((Eval.mirrored_meaning Eval.depthLimit).enterBody main).bind ?_ w
    rintro v _ rfl
    exact mirrors_pure (exitValue_strip v).symm

/-- What a program does after its statements, if its types are not checked. -/
def conclude (showFrame : Bool) (args : List String) (top : Scope Term) : Eval Int :=
  if showFrame && top.shown?.isNone then throw .wrongValue
  else if !top.top.names.contains "main" then do
    Eval.printLine "no main function defined, exiting"
    return 0
  else callMain args

def ending (showFrame : Bool) (args : List String) : Eval Int :=
  get >>= fun w => conclude showFrame args w.scope

/-- What follows the statements of a program looks at the frame in two ways: whether it can be written, and
whether `main` is bound.  Stripping changes neither. -/
theorem mirrors_ending (showFrame : Bool) (args : List String) :
    Mirrors Eq (ending showFrame args) (ending showFrame args) := by
  intro w
  have hshown : w.strip.scope.shown?.isNone = w.scope.shown?.isNone := w.scope.isNone_shown?_strip
  have hnames : w.strip.scope.top.names = w.scope.top.names := by
    simp [World.strip, Scope.map, Frame.map, Frame.names]
  unfold ending
  rw [run_get_bind, run_get_bind, conclude, conclude, hshown, hnames]
  split
  · exact .error .wrongValue w
  · split
    · exact ((Eval.mirrors_printLine _).bind fun _ _ _ => mirrors_pure rfl) w
    · exact mirrors_callMain args w

/-- To evaluate two steps at a desk is to evaluate one after the other. -/
theorem evaluate_bind {α β : Type} (x : Eval α) (g : α → Eval β) :
    Typing.evaluate (x >>= g) = Typing.evaluate x >>= fun a => Typing.evaluate (g a) := by
  funext d
  show (Typing.evaluate (x >>= g)).run d = (Typing.evaluate x >>= fun a => Typing.evaluate (g a)).run d
  have hrun : ∀ {γ : Type} (y : Eval γ), (Typing.evaluate y).run d =
      ((y.run d.toWorld).1, { d with toWorld := (y.run d.toWorld).2 }) := fun _ => rfl
  rw [run_bind, hrun x, hrun (x >>= g), run_bind]
  rcases x.run d.toWorld with ⟨r, w⟩
  cases r with
  | error e => rfl
  | ok a => rfl

/-- Both may look at the names. -/
theorem evaluate_get_bind {α : Type} (g : Scope Term → Eval α) :
    Typing.evaluate (get >>= fun w => g w.scope) = get >>= fun d => Typing.evaluate (g d.scope) := rfl

/-- The last steps of a program without a check of types do nothing but evaluate, so they are one evaluation
at the desk. -/
theorem evaluate_conclude (showFrame : Bool) (args : List String) (top : Scope Term) :
    Typing.evaluate (conclude showFrame args top) =
      present showFrame top >>= fun _ => finish args false top := by
  unfold conclude present finish
  split
  · rfl
  · rw [pure_bind]
    split
    · rfl
    · rfl

/-- If its types are not checked, all of a program is evaluated in a world. -/
theorem playThrough_run_eq {source : String} {t u : Term} (ht : parse source = .ok t)
    (hu : Tree.lower t = .ok u) (k : Host) (showFrame : Bool) (args : List String) :
    (playThrough showFrame source args false).run (.start k) =
      (Typing.evaluate (u.eval >>= fun _ => ending showFrame args)).run (.start k) := by
  have hparse : (liftM (parse source) : Typing Term).run (.start k) = (.ok t, .start k) := by rw [ht]; rfl
  have hlower : (liftM (Tree.lower t) : Typing Term).run (.start k) = (.ok u, .start k) := by rw [hu]; rfl
  unfold playThrough statements ending
  rw [evaluate_bind, evaluate_get_bind]
  simp only [evaluate_conclude, bind_assoc]
  rw [run_bind_of_ok hparse, run_bind_of_ok hlower]
  simp only [Bool.false_eq_true, if_false, bind_assoc, pure_bind]

end Program

/-! ## 5. With the comment and without

Two runs are compared through the stripped one.  Each of them mirrors it, so they print the same and end alike
(`SameRun.of_mirror`).  A comment among the statements of the program itself, which stripping does not reach,
is compared directly (`sameRun_block_note`). -/

namespace Eval

variable {α β γ δ : Type}

/-- Two computations have done the same, up to idle comments. -/
inductive SameRun (R : α → β → Prop) : Except Error α × World → Except Error β × World → Prop where
  | ok {a : α} {b : β} {w w' : World} (h : R a b) (hw : w'.strip = w.strip) :
      SameRun R (.ok a, w) (.ok b, w')
  | error {e e' : Error} {w w' : World} (he : e'.strip = e.strip) (hw : w'.strip = w.strip) :
      SameRun R (.error e, w) (.error e', w')

/-- Two runs with the same mirror image are the same but for what is stripped. -/
theorem SameRun.of_mirror {R : α → γ → Prop} {S : β → γ → Prop} {p : Except Error α × World}
    {q : Except Error β × World} {r : Except Error γ × World} (hp : Mirror R p r) (hq : Mirror S q r) :
    SameRun (fun a b => ∃ c, R a c ∧ S b c) p q := by
  cases hp with
  | ok w h =>
    generalize hw : w.strip = v at hq
    cases hq with
    | ok w' h' => exact .ok ⟨_, h, h'⟩ hw.symm
  | error e w =>
    generalize hw : w.strip = v at hq
    generalize he : e.strip = e₀ at hq
    cases hq with
    | error e' w' => exact .error he.symm hw.symm

/-- Such runs can be put together, since the second steps start in worlds that are the same once they are
stripped. -/
theorem SameRun.bind {R : α → β → Prop} {S : γ → δ → Prop} {x : Eval α} {y : Eval β} {f : α → Eval γ}
    {g : β → Eval δ} {w w' : World} (h : SameRun R (x.run w) (y.run w'))
    (hf : ∀ a b v v', R a b → v'.strip = v.strip → SameRun S ((f a).run v) ((g b).run v')) :
    SameRun S ((x >>= f).run w) ((y >>= g).run w') := by
  rw [run_bind, run_bind]
  generalize x.run w = p at h
  generalize y.run w' = q at h
  cases h with
  | ok hab hw => exact hf _ _ _ _ hab hw
  | error he hw => exact .error he hw

theorem SameRun.mono {R S : α → β → Prop} {p : Except Error α × World} {q : Except Error β × World}
    (h : SameRun R p q) (hRS : ∀ a b, R a b → S a b) : SameRun S p q := by
  cases h with
  | ok hab hw => exact .ok (hRS _ _ hab) hw
  | error he hw => exact .error he hw

/-- What does in a stripped world what it does anyway does the same in two worlds that are alike. -/
theorem Mirrors.sameRun {x : Eval α} (h : Mirrors Eq x x) {w w' : World} (hw : w'.strip = w.strip) :
    SameRun Eq (x.run w) (x.run w') := by
  have hmirror' := h w'
  rw [hw] at hmirror'
  refine (SameRun.of_mirror (h w) hmirror').mono ?_
  rintro a b ⟨c, rfl, rfl⟩
  rfl

theorem SameRun.refl {R : α → α → Prop} (hR : ∀ a, R a a) (p : Except Error α × World) : SameRun R p p := by
  obtain ⟨r, w⟩ := p
  cases r with
  | ok a => exact .ok (hR a) rfl
  | error e => exact .error rfl rfl

/-- The value of a statement counts only if it is the last one. -/
theorem sameRun_block (r : Meaning) (a b : Term) (ts : List Term) (w : World) :
    SameRun (fun _ _ => True) ((block r a ts).run w) ((block r b ts).run w) := by
  cases ts with
  | nil => exact .ok trivial rfl
  | cons t ts => exact .refl (fun _ => trivial) _

/-- A comment among statements.  Its value replaces the last one, and is replaced by the next; if none follows
it is the value of the block, and that is why nothing is said about the values here. -/
theorem sameRun_block_note {r : Meaning} {c : Term} (hc : r.eval c = pure .nothing) (above below : List Term)
    (last : Term) (w : World) :
    SameRun (fun _ _ => True) ((block r last (above ++ below)).run w)
      ((block r last (above ++ c :: below)).run w) := by
  induction above generalizing last w with
  | nil =>
    have hblock : block r last (c :: below) = block r .nothing below := by
      show (r.eval c >>= fun v => block r v below) = _
      rw [hc, pure_bind]
    rw [List.nil_append, List.nil_append, hblock]
    exact sameRun_block r last .nothing below w
  | cons t above ih =>
    show SameRun _ ((r.eval t >>= fun v => block r v (above ++ below)).run w)
      ((r.eval t >>= fun v => block r v (above ++ c :: below)).run w)
    rw [run_bind, run_bind]
    rcases (r.eval t).run w with ⟨v, w'⟩
    cases v with
    | ok v => exact ih v w'
    | error e => exact .error rfl rfl

/-- **The statements of a program do the same.**  The comment is one of the statements, or it is inside of one
and then the two programs are the same when they are stripped. -/
theorem sameRun_statements {us us' : List Term} (h : Comment.GrowsAll .lowered us us') (w : World) :
    SameRun (fun _ _ => True) ((Term.action .block us).eval.run w) ((Term.action .block us').eval.run w) := by
  cases h with
  | note hc above below =>
    obtain ⟨n, rfl⟩ := hc
    exact sameRun_block_note rfl above below .nothing w
  | @inside x x' h above below =>
    have hstrip : (Term.action .block (above ++ x' :: below)).strip =
        (Term.action .block (above ++ x :: below)).strip := by
      simp only [Term.action, Term.strip, Term.stripAll_eq_map, List.map_append, List.map_cons, h.strip_eq]
    have hmirror := (mirrored_meaning depthLimit).eval (.action .block (above ++ x :: below)) w
    have hmirror' := (mirrored_meaning depthLimit).eval (.action .block (above ++ x' :: below)) w
    rw [hstrip] at hmirror'
    exact (SameRun.of_mirror hmirror hmirror').mono fun _ _ _ => trivial

end Eval

namespace Program

open Comment (GrowsAll)
open Eval (SameRun)

/-- The same result and the same text printed.  Errors are compared without the comments in them. -/
def SameOutcome (p q : Except Error Int × String) : Prop :=
  q.1.mapError Error.strip = p.1.mapError Error.strip ∧ q.2 = p.2

/-- What a program gives back is the same, unless it fails. -/
theorem SameOutcome.eq_of_ok {n : Int} {out : String} {q : Except Error Int × String}
    (h : SameOutcome (.ok n, out) q) : q = (.ok n, out) := by
  obtain ⟨r, out'⟩ := q
  obtain ⟨hr, rfl⟩ := h
  cases r with
  | ok m => exact congrArg (·, out') hr
  | error e => cases hr

/-- A comment may be put at this column between these lines and those. -/
def takesNote (column : Nat) (above below : List (List Char)) : Bool :=
  match Lexer.numberedLines 1 above, Lexer.numberedLines 1 below with
  | .ok ts, .ok us => Layout.takesNote column ts us
  | _, _ => false

theorem out_eq_of_strip_eq {w w' : World} (h : w'.strip = w.strip) : w'.out = w.out := by
  have hout : w'.strip.out = w.strip.out := congrArg World.out h
  exact hout

theorem SameOutcome.of_sameRun {p q : Except Error Int × World} (h : SameRun Eq p q) :
    SameOutcome (p.1, p.2.out) (q.1, q.2.out) := by
  cases h with
  | ok hab hw =>
    subst hab
    exact ⟨rfl, out_eq_of_strip_eq hw⟩
  | error he hw => exact ⟨congrArg Except.error he, out_eq_of_strip_eq hw⟩

/-- A text is read as one that has grown. -/
theorem parse_of_takesNote {source source' : String} {above below : List (List Char)} {l : List Char}
    (hlines : Text.lines source.toList = above ++ below)
    (hlines' : Text.lines source'.toList = above ++ l :: below) (hl : Lexer.IsNote l)
    (hplace : takesNote (Lexer.leadingBlanks l) above below = true) {t : Term}
    (ht : parse source = .ok t) :
    ∃ us us', t = .phrase .block us ∧ parse source' = .ok (.phrase .block us') ∧
      GrowsAll .parsed us us' := by
  unfold takesNote at hplace
  split at hplace
  · rename_i ts us hts hus
    obtain ⟨htokens, s, htokens'⟩ := Lexer.numberedLines_note hts hus hl
    obtain ⟨rows, -, rfl⟩ := Lexer.numberedLines_eq_cut hts
    obtain ⟨rows', -, rfl⟩ := Lexer.numberedLines_eq_cut hus
    obtain ⟨kids, kids', htree, htree', hgrows⟩ := Layout.growsAll_of_takesNote hplace s
    have hparse : parse source = Tree.parse (.phrase .block kids) := by
      rw [parse, Lexer.tokens, hlines, htokens, ← htree]
      rfl
    have hparse' : parse source' = Tree.parse (.phrase .block kids') := by
      rw [parse, Lexer.tokens, hlines', htokens', ← htree']
      rfl
    rw [hparse']
    exact Comment.grows_parse hgrows (hparse.symm.trans ht)
  · cases hplace

/-- **A comment makes no difference where there is a place for it.** -/
theorem outcome_of_note {source source' : String} (hsource : source.length < Text.writingBound)
    (hsource' : source'.length < Text.writingBound) {above below : List (List Char)} {l : List Char}
    (hlines : Text.lines source.toList = above ++ below)
    (hlines' : Text.lines source'.toList = above ++ l :: below) (hl : Lexer.IsNote l)
    (hplace : takesNote (Lexer.leadingBlanks l) above below = true)
    (hread : ∃ t u, parse source = .ok t ∧ Tree.lower t = .ok u) (f : Journal.Filter) (k : Host)
    (args : List String) : SameOutcome (outcome f k source args false) (outcome f k source' args false) := by
  obtain ⟨t, u, ht, hu⟩ := hread
  obtain ⟨ts, ts', rfl, ht', hgrows⟩ := parse_of_takesNote hlines hlines' hl hplace ht
  obtain ⟨us, us', rfl, hu', hgrows⟩ := Comment.grows_lower hgrows hu
  rw [outcome_eq_playThrough hsource, outcome_eq_playThrough hsource', playThrough_run_eq ht hu,
    playThrough_run_eq ht' hu']
  refine SameOutcome.of_sameRun ((Eval.sameRun_statements hgrows { toHost := k }).bind fun _ _ v v' _ hv => ?_)
  exact (mirrors_ending _ args).sameRun hv

/-- A function of one line. -/
def five : String := "main = (argc, argv) ->\n  5\n"

/-- The syntax tree of such a function with these statements. -/
def mainOf (statements : List Term) : Term :=
  .phrase .block [.phrase .assign [.word .id "main",
    .phrase .lambda [.phrase .list [.word .id "argc", .word .id "argv"], .phrase .block statements]]]

theorem cuts_five : Lexer.Cuts "  5".toList [.word .int "5"] [] := .single rfl

theorem parse_five : parse five = .ok (mainOf [.word .int "5"]) := by
  have hlines : Text.lines five.toList = ["main = (argc, argv) ->".toList, "  5".toList] := by decide
  rw [parse, Lexer.tokens, hlines, Lexer.numberedLines_cons 1 (by decide),
    Lexer.line_of_cuts cuts_head (by simp), Lexer.numberedLines_cons 2 (by decide),
    Lexer.line_of_cuts cuts_five (by simp)]
  rfl

theorem outcome_five : outcome { otherwise := false } {} five ["prog"] false = (.ok 5, "") := by
  rw [outcome_eq_playThrough (length_lt_writingBound (by decide))]
  unfold playThrough statements
  rw [parse_five]
  rfl

theorem takesNote_five : takesNote 2 ["main = (argc, argv) ->".toList] ["  5".toList] = true := by
  rw [takesNote, Lexer.numberedLines_cons 1 (by decide), Lexer.line_of_cuts cuts_head (by simp),
    Lexer.numberedLines_cons 1 (by decide), Lexer.line_of_cuts cuts_five (by simp)]
  decide

/-- A comment above the only line of the function. -/
theorem outcome_of_note_five :
    takesNote 2 ["main = (argc, argv) ->".toList] ["  5".toList] = true ∧
    outcome { otherwise := false } {} "main = (argc, argv) ->\n  # five\n  5\n" ["prog"] false =
      (.ok 5, "") := by
  have hlines : Text.lines five.toList = ["main = (argc, argv) ->".toList] ++ ["  5".toList] := by decide
  have hlines' : Text.lines "main = (argc, argv) ->\n  # five\n  5\n".toList =
      ["main = (argc, argv) ->".toList] ++ "  # five".toList :: ["  5".toList] := by decide
  refine ⟨takesNote_five, SameOutcome.eq_of_ok ?_⟩
  rw [← outcome_five]
  exact outcome_of_note (length_lt_writingBound (by decide)) (length_lt_writingBound (by decide)) hlines
    hlines' ⟨_, rfl⟩ takesNote_five ⟨_, _, parse_five, rfl⟩ _ _ _

theorem parse_lastNote : parse "main = (argc, argv) ->\n  5\n  # done\n" =
    .ok (mainOf [.word .int "5", .word .comment "# done"]) := by
  have hcuts : Lexer.Cuts "  # done".toList [.word .comment "# done"] [] := .single rfl
  have hlines : Text.lines "main = (argc, argv) ->\n  5\n  # done\n".toList =
      ["main = (argc, argv) ->".toList, "  5".toList, "  # done".toList] := by decide
  rw [parse, Lexer.tokens, hlines, Lexer.numberedLines_cons 1 (by decide),
    Lexer.line_of_cuts cuts_head (by simp), Lexer.numberedLines_cons 2 (by decide),
    Lexer.line_of_cuts cuts_five (by simp), Lexer.numberedLines_cons 3 (by decide),
    Lexer.line_of_cuts hcuts (by simp)]
  rfl

/-- A comment below the only line of the function: its value is what the function gives back. -/
theorem outcomes_lastNote :
    outcome { otherwise := false } {} five ["prog"] false = (.ok 5, "") ∧
    outcome { otherwise := false } {} "main = (argc, argv) ->\n  5\n  # done\n" ["prog"] false =
      (.ok 0, "") := by
  refine ⟨outcome_five, ?_⟩
  rw [outcome_eq_playThrough (length_lt_writingBound (by decide))]
  unfold playThrough statements
  rw [parse_lastNote]
  rfl

end Program

end Offside
