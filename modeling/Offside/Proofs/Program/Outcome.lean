import Offside.Proofs.Program.Steps
import Offside.Proofs.Tree.Shape
/-!
# The journal and the outcome of a program

The outcome of a program is its result and what it has printed.  The filter of the journal is meant to
have no part in it.  It can have one only through a line that is to be kept and cannot be written, since
that ends the program.

Numbers that cannot be written do not come from the text.

* The tokens of a line are texts, and its column is no larger than the text is long
  (`Lexer.writable_tokens`).
* A syntax tree consists of words and phrases (`Tree.writable_parse`), and lowering reads no number that
  is too long to be written (`Tree.writable_lower`).

So reading and lowering do what they do without a journal (`leads_read_parse`, `leads_lowerTree_lower`).
Of the lines about running a program only one shows values that were computed, the one about the frame
after the statements of the program.  If a number in that frame is too long, whether the program goes on
to `main` depends on the filter, and on nothing but its answer for this one line
(`plays_run`).
-/

namespace Offside

open Term (WritableAll writableAll_iff Everywhere EverywhereAll)

/-! ## 1. Tokens

The numbers in a list of tokens are its columns.  A column counts blanks at the start of a line, and a line is
part of the text, so a text that is shorter than the bound has only columns that can be written. -/

namespace Lexer

theorem IsToken.writable {t : Term} (h : IsToken t) : t.Writable := by
  cases h <;> trivial

theorem leadingBlanks_le (l : List Char) : leadingBlanks l ≤ l.length :=
  (List.takeWhile_prefix Text.isBlank).length_le

/-- No line is longer than the text. -/
theorem Broken.length_le {cs : List Char} {ls : List (List Char)} (h : Broken cs ls) :
    ∀ l ∈ ls, l.length ≤ cs.length := by
  induction h with
  | nil => exact List.forall_mem_nil _
  | last => exact List.forall_mem_singleton.2 Nat.le.refl
  | cons _ _ _ ih =>
    refine List.forall_mem_cons.2 ⟨by simp, fun l hl => Nat.le_trans (ih l hl) ?_⟩
    simp only [List.length_append]
    omega

/-- What a text is cut into can be written, unless a column is as large as no text is long.  Tokens hold
texts; the only numbers are the columns, and a column counts blanks of the text. -/
theorem writable_tokens {source : String} {ts : List Term} (hsource : source.length < Text.writingBound)
    (h : tokens source = .ok ts) : WritableAll ts := by
  obtain ⟨rows, hrows, rfl⟩ := numberedLines_eq_cut h
  refine writableAll_iff.2 fun t ht => ?_
  obtain ⟨r, hr, ht⟩ := List.mem_flatMap.1 ht
  rcases List.mem_cons.1 ht with rfl | ht
  · have hline : r.line ∈ Text.lines source.toList :=
      (List.mem_filter.1 (hrows ▸ List.mem_map_of_mem hr)).1
    have hlength := (broken_lines source.toList).length_le r.line hline
    rw [String.length_toList] at hlength
    show (leadingBlanks r.line : Int).natAbs < Text.writingBound
    rw [Int.natAbs_natCast]
    exact Nat.lt_of_le_of_lt (Nat.le_trans (leadingBlanks_le r.line) hlength) hsource
  · exact (r.spaced.isToken t ht).writable

end Lexer

/-! ## 2. Trees

A syntax tree has no numbers at all: its leaves hold the texts of tokens. -/

namespace Term

mutual

/-- A tree can be written if its leaves can. -/
theorem Writable.of_everywhere {P : Term → Prop} (hP : ∀ t, t.isNode = false → P t → t.Writable) :
    ∀ t : Term, t.Everywhere P → t.Writable
  | .node _ _ kids, h => WritableAll.of_everywhereAll hP kids h.2
  | .nothing, h | .flag _, h | .number _, h | .text _, h | .seq _, h | .arm _ _, h | .dent _, h
  | .symbol _, h | .kind _, h | .signature _ _ _, h | .leaf _ _ _, h => hP _ rfl h

theorem WritableAll.of_everywhereAll {P : Term → Prop}
    (hP : ∀ t, t.isNode = false → P t → t.Writable) :
    ∀ ts : List Term, EverywhereAll P ts → WritableAll ts
  | [], _ => trivial
  | t :: ts, h => ⟨Writable.of_everywhere hP t h.1, WritableAll.of_everywhereAll hP ts h.2⟩

end

end Term

namespace Tree

theorem Finished.writable {t : Term} (ht : t.isNode = false) (h : Finished t) : t.Writable := by
  cases h with
  | word => trivial
  | _ => cases ht

/-- The syntax tree of a text can be written. -/
theorem writable_parse {source : String} {t : Term} (h : Program.parse source = .ok t) :
    t.Writable :=
  .of_everywhere (fun _ => Finished.writable) t (finished_parse h)

end Tree

namespace Program

/-! ## 3. Reading and lowering with a journal

These two stages do what they do without a journal, whether they succeed or fail. -/

variable (f : Journal.Filter)

/-- A text is read, or it fails to be read, as without a journal.  If it is cut into tokens these can be
written, and then every line about them can; if not, it fails before the first line. -/
theorem leads_read_parse {source : String} (h : source.length < Text.writingBound) (d : Desk) :
    Leads (read f source) d (parse source) d := by
  unfold parse
  cases hts : Lexer.tokens source with
  | ok ts => exact leads_read f hts (Lexer.writable_tokens h hts) d
  | error e =>
    have hcut : Leads (readTokens f source) d (.error e) d := by
      unfold readTokens
      rw [hts]
      exact (leads_lift (.error e) d).bind_error
    exact hcut.bind_error

/-- A tree that can be written is lowered, or it fails to be lowered, as without a journal. -/
theorem leads_lowerTree_lower {t : Term} (ht : t.Writable) (d : Desk) :
    Leads (lowerTree f t) d (Tree.lower t) d := by
  cases h : Tree.lower t with
  | ok t' => exact leads_lowerTree f ht h (Tree.writable_lower ht h) d
  | error e =>
    unfold lowerTree
    refine (leads_loweringNotes f ht d).bind ?_
    rw [h]
    exact (leads_lift (.error e) d).bind_error

/-! ## 4. Running with a journal

A step with a journal is compared with work at a desk that has none (`Plays`).  All steps but one write lines
that can always be written.  The line about the frame is kept in the comparison as a flag: whether the filter
lets it through. -/

/-- Whatever is in the journal, the step does at the desk what this work does, which has no journal. -/
def Plays {α : Type} (x : Step α) (y : Typing α) : Prop := ∀ d, Leads x d (y.run d).1 (y.run d).2

section Plays

variable {α β : Type} {x : Step α} {y : Typing α}

theorem plays_atDesk (y : Typing α) : Plays (atDesk y) y := fun _ => leads_atDesk rfl

/-- A step that leaves the desk as it is and gives the same result everywhere. -/
theorem plays_lift {r : Except Error α} (h : ∀ d, Leads x d r d) : Plays x (liftM r) := h

theorem plays_pure (a : α) : Plays (pure a) (pure a) := leads_pure a

/-- Steps are compared one after the other.  About the second one it may be used that the first one can end
like this. -/
theorem Plays.bind {g : α → Step β} {h : α → Typing β} (hx : Plays x y)
    (hg : ∀ a, (∃ d d', y.run d = (.ok a, d')) → Plays (g a) (h a)) : Plays (x >>= g) (y >>= h) := by
  intro d
  have hfirst := hx d
  rw [run_bind]
  rcases hy : y.run d with ⟨r, d'⟩
  rw [hy] at hfirst
  cases r with
  | error e => exact hfirst.bind_error
  | ok a => exact hfirst.bind (hg a ⟨d, d', hy⟩ d')

/-- Both may look at the names. -/
theorem plays_scope {g : Scope Term → Step β} {h : Scope Term → Typing β}
    (hg : ∀ top, Plays (g top) (h top)) :
    Plays (get >>= fun p => g p.desk.scope) (get >>= fun d => h d.scope) := by
  intro d
  rw [run_get_bind]
  exact leads_get_bind fun _ => hg d.scope d

end Plays

/-- The statements of a program, without a journal. -/
def statements (source : String) (checkTypes : Bool) : Typing Unit := do
  let t ← parse source
  let t ← Tree.lower t
  let t ← if checkTypes then Typing.withSites t.enumerate else pure t
  let _ ← Typing.evaluate t.eval

/-- What a program does after its statements, without a journal. -/
def finish (args : List String) (checkTypes : Bool) (top : Scope Term) : Typing Int := do
  if !top.top.names.contains "main" then
    Typing.evaluate (Eval.printLine "no main function defined, exiting")
    return 0
  if checkTypes then checkMain args
  Typing.evaluate (callMain args)

/-- The path of the line about the frame after the statements. -/
def framePath : List String := ["interpreter", "topframe"]

/-- Stops if the frame is to be shown and cannot be. -/
def present (showFrame : Bool) (top : Scope Term) : Typing Unit :=
  if showFrame && top.shown?.isNone then throw .wrongValue else pure ()

/-- A program without a journal: all that is left of it is whether the frame is to be shown. -/
def playThrough (showFrame : Bool) (source : String) (args : List String) (checkTypes : Bool) :
    Typing Int := do
  statements source checkTypes
  let top := (← get).scope
  present showFrame top
  finish args checkTypes top

/-- The line about the frame ends the program if it is to be kept and cannot be written, and does nothing else
to the desk. -/
theorem plays_note_frame (top : Scope Term) :
    Plays (note f framePath fun _ => top.shown?.map ("the top frame is\n " ++ ·))
      (present (f.admits framePath) top) := by
  intro d
  cases hs : top.shown? with
  | some s =>
    have hpass : present (f.admits framePath) top = pure () := by simp [present, hs]
    rw [hpass]
    exact leads_note f framePath ⟨_, rfl⟩ d
  | none =>
    intro journal
    refine ⟨journal, ?_⟩
    unfold note present
    rw [hs]
    cases f.admits framePath <;> rfl

/-- After the statements no lines are written. -/
theorem plays_finish (args : List String) (checkTypes : Bool) (top : Scope Term) :
    Plays (do
      if !top.top.names.contains "main" then
        atDesk (Typing.evaluate (Eval.printLine "no main function defined, exiting"))
        return 0
      if checkTypes then atDesk (checkMain args)
      atDesk (Typing.evaluate (callMain args))) (finish args checkTypes top) := by
  unfold finish
  split
  · exact (plays_atDesk _).bind fun _ _ => plays_pure 0
  · split
    · exact (plays_atDesk _).bind fun _ _ => plays_atDesk _
    · exact plays_atDesk _

/-- A whole run.  Filters come into it through the answer for one path only, so the right side does not
mention the filter in any other way. -/
theorem plays_run {source : String} (h : source.length < Text.writingBound) (args : List String)
    (checkTypes : Bool) :
    Plays (run f source args checkTypes) (playThrough (f.admits framePath) source args checkTypes) := by
  have hread := plays_lift (leads_read_parse f h)
  unfold run playThrough statements
  simp only [bind_assoc]
  refine hread.bind fun t ht => ?_
  obtain ⟨d, d', ht⟩ := ht
  have hw : t.Writable := Tree.writable_parse (congrArg Prod.fst ht)
  unfold runTree
  refine (plays_lift (leads_lowerTree_lower f hw)).bind fun t' _ => ?_
  cases checkTypes with
  | false =>
    simp only [Bool.false_eq_true, if_false, bind_assoc, pure_bind]
    refine (plays_atDesk _).bind fun _ _ => ?_
    exact plays_scope fun top => (plays_note_frame f top).bind fun _ _ => plays_finish args false top
  | true =>
    simp only [if_true, bind_assoc, pure_bind]
    refine (plays_atDesk _).bind fun t _ => (plays_atDesk _).bind fun _ _ => ?_
    exact plays_scope fun top => (plays_note_frame f top).bind fun _ _ => plays_finish args true top

/-! ## 5. Outcomes

The outcome under a filter is that of `playThrough`, to which the filter has given a single bit: whether the
frame is to be shown.  So two filters with the same bit give the same outcome.  With different bits they
differ only if the frame cannot be shown, and then the one program goes on and the other one does not. -/

/-- What can be seen of a program in a host: its result and what it has printed. -/
def outcome (k : Host) (source : String) (args : List String) (checkTypes : Bool) : Except Error Int × String :=
  let (r, p) := (run f source args checkTypes).run (.start k)
  (r, p.desk.out)

/-- The statements come to an end at this desk, where a name is bound to a value that cannot be
written, because there is a number in it that is too long. -/
def Overflows (k : Host) (source : String) (checkTypes : Bool) (d : Desk) : Prop :=
  (statements source checkTypes).run (.start k) = (.ok (), d) ∧
    ∃ frame ∈ d.scope.top :: d.scope.outer, ∃ e ∈ frame.entries, ¬ e.2.Writable

variable {f} {k : Host} {source : String} {args : List String} {checkTypes : Bool}

theorem outcome_of_leads {r : Except Error Int} {d : Desk}
    (h : Leads (run f source args checkTypes) (.start k) r d) :
    outcome f k source args checkTypes = (r, d.out) := by
  obtain ⟨journal, hrun⟩ := h []
  exact congrArg (fun q : Except Error Int × Progress => (q.1, q.2.desk.out)) hrun

theorem outcome_eq_playThrough (h : source.length < Text.writingBound) :
    outcome f k source args checkTypes =
      ((playThrough (f.admits framePath) source args checkTypes).run (.start k)).map id (·.out) :=
  outcome_of_leads (plays_run f h args checkTypes (.start k))

/-- Where the frame can be shown, the program goes on. -/
theorem playThrough_run {d : Desk} (hs : (statements source checkTypes).run (.start k) = (.ok (), d))
    (hshown : d.scope.shown? ≠ none) (a : Bool) :
    (playThrough a source args checkTypes).run (.start k) = (finish args checkTypes d.scope).run d := by
  have hnone : d.scope.shown?.isNone = false :=
    Option.isNone_eq_false_iff.2 (Option.isSome_iff_ne_none.2 hshown)
  unfold playThrough
  rw [run_bind_of_ok hs]
  simp only [run_get_bind, present, hnone, Bool.and_false]
  rfl

/-- Where nothing is too long, it does not matter whether the frame is to be shown.  Either the statements
fail, and then the frame is not reached, or they end at a desk whose frame can be shown. -/
theorem playThrough_eq (h : ∀ d, ¬ Overflows k source checkTypes d) (a b : Bool) :
    (playThrough a source args checkTypes).run (.start k) =
      (playThrough b source args checkTypes).run (.start k) := by
  rcases hs : (statements source checkTypes).run (.start k) with ⟨r, d⟩
  cases r with
  | error e =>
    unfold playThrough
    rw [run_bind, run_bind, hs]
  | ok u =>
    have hshown : d.scope.shown? ≠ none := fun hd => h d ⟨hs, Scope.shown?_eq_none_iff.1 hd⟩
    rw [playThrough_run hs hshown a, playThrough_run hs hshown b]

/-- If the frame is to be shown and cannot be, that is the end. -/
theorem Overflows.playThrough_run {d : Desk} (h : Overflows k source checkTypes d) :
    (playThrough true source args checkTypes).run (.start k) = (.error .wrongValue, d) := by
  obtain ⟨hs, hbad⟩ := h
  have hshown := Scope.shown?_eq_none_iff.2 hbad
  unfold playThrough
  rw [run_bind, hs]
  simp only [run_get_bind, present, hshown]
  rfl

/-- **The journal and the outcome.**  Whatever commands and matches answer, two filters give a program the same
outcome, unless its statements bind a name to a number that is too long to be written, and only one of the
filters keeps the line about the frame.  Under that one the program ends with the statements. -/
theorem outcome_eq_of_filters (h : source.length < Text.writingBound) (k : Host) (f g : Journal.Filter) :
    ((∀ d, ¬ Overflows k source checkTypes d) ∨ f.admits framePath = g.admits framePath →
      outcome f k source args checkTypes = outcome g k source args checkTypes) ∧
    ∀ d, Overflows k source checkTypes d → f.admits framePath = true →
      outcome f k source args checkTypes = (.error .wrongValue, d.out) := by
  constructor
  · rintro (hover | hsame)
    · rw [outcome_eq_playThrough h, outcome_eq_playThrough h, playThrough_eq hover]
    · rw [outcome_eq_playThrough h, outcome_eq_playThrough h, hsame]
  · intro d hover hadmits
    rw [outcome_eq_playThrough h, hadmits, hover.playThrough_run]
    rfl

/-- The head of a program, cut into tokens. -/
theorem cuts_head : Lexer.Cuts "main = (argc, argv) ->".toList [.word .id "main", .symbol "=",
    .symbol "(", .word .id "argc", .symbol ",", .word .id "argv", .symbol ")", .symbol "->"] [] :=
  .step rfl (.step rfl (.step rfl (.step rfl (.step rfl (.step rfl (.step rfl (.single rfl)))))))

/-- The bound is far away from short texts. -/
theorem length_lt_writingBound {source : String} (h : source.length < Nat.pow 10 2) :
    source.length < Text.writingBound :=
  Nat.lt_of_lt_of_le h (Text.pow_le_writingBound (by decide))

/-- A number that is too long to be written, and a function that does not use it. -/
def longNumber : String := "x = 10 ^ 5000\nmain = (argc, argv) ->\n  0\n"

def longNumberTree : Term :=
  .phrase .block [
    .phrase .assign [.word .id "x", .phrase .pow [.word .int "10", .word .int "5000"]],
    .phrase .assign [.word .id "main",
      .phrase .lambda [.phrase .list [.word .id "argc", .word .id "argv"],
        .phrase .block [.word .int "0"]]]]

theorem parse_longNumber : parse longNumber = .ok longNumberTree := by
  have h₁ : Lexer.Cuts "x = 10 ^ 5000".toList [.word .id "x", .symbol "=", .word .int "10", .symbol "^",
      .word .int "5000"] [] :=
    .step rfl (.step rfl (.step rfl (.step rfl (.single rfl))))
  have h₂ : Lexer.Cuts "  0".toList [.word .int "0"] [] := .single rfl
  have hlines : Text.lines longNumber.toList =
      ["x = 10 ^ 5000".toList, "main = (argc, argv) ->".toList, "  0".toList] := by decide
  rw [parse, Lexer.tokens, hlines, Lexer.numberedLines_cons 1 (by decide),
    Lexer.line_of_cuts h₁ (by simp), Lexer.numberedLines_cons 2 (by decide),
    Lexer.line_of_cuts cuts_head (by simp), Lexer.numberedLines_cons 3 (by decide),
    Lexer.line_of_cuts h₂ (by simp)]
  rfl

theorem overflows_longNumber : ∃ d, Overflows {} longNumber false d ∧ d.out = "" := by
  have hrun : (fun q : Except Error Unit × Desk =>
      q.1.isOk && q.2.scope.shown?.isNone && q.2.out == "") ((statements longNumber false).run (.start {})) := by
    unfold statements
    rw [parse_longNumber]
    decide +kernel
  rcases hd : (statements longNumber false).run (.start {}) with ⟨r, d⟩
  simp only [hd, Bool.and_eq_true, Option.isNone_iff_eq_none, beq_iff_eq] at hrun
  obtain ⟨⟨hok, hnone⟩, hout⟩ := hrun
  cases r with
  | error e => cases hok
  | ok u => exact ⟨d, ⟨hd, Scope.shown?_eq_none_iff.1 hnone⟩, hout⟩

theorem length_longNumber : longNumber.length < Text.writingBound := length_lt_writingBound (by decide)

theorem outcome_longNumber : outcome { otherwise := false } {} longNumber ["prog"] false = (.ok 0, "") := by
  rw [outcome_eq_playThrough length_longNumber]
  unfold playThrough statements
  rw [parse_longNumber]
  rfl

/-- The line about the tokens does no harm, the one about the frame does. -/
theorem outcome_eq_of_filters_longNumber :
    longNumber.length < Text.writingBound ∧
    outcome { rules := [("tokenizer", true)], otherwise := false } {} longNumber ["prog"] false = (.ok 0, "") ∧
    ∃ d, Overflows {} longNumber false d ∧
      outcome { otherwise := true } {} longNumber ["prog"] false = (.error .wrongValue, d.out) := by
  obtain ⟨d, hover, -⟩ := overflows_longNumber
  refine ⟨length_longNumber, ?_, d, hover, ?_⟩
  · have hsame : Journal.Filter.admits { rules := [("tokenizer", true)], otherwise := false } framePath =
        Journal.Filter.admits { otherwise := false } framePath := by decide +kernel
    exact ((outcome_eq_of_filters length_longNumber {} _ _).1 (.inr hsame)).trans outcome_longNumber
  · exact (outcome_eq_of_filters length_longNumber {} _ { otherwise := false }).2 d hover rfl

/-- The filter decides whether this program gives back 0 or fails. -/
theorem outcomes_longNumber :
    outcome { rules := [("interpreter.topframe", true)], otherwise := false } {} longNumber ["prog"] false =
      (.error .wrongValue, "") ∧
    outcome { otherwise := false } {} longNumber ["prog"] false = (.ok 0, "") := by
  obtain ⟨d, hover, hout⟩ := overflows_longNumber
  have hadmits : Journal.Filter.admits { rules := [("interpreter.topframe", true)], otherwise := false }
      framePath = true := by decide +kernel
  refine ⟨?_, outcome_longNumber⟩
  rw [outcome_eq_playThrough length_longNumber, hadmits, hover.playThrough_run, Prod.map, hout]
  rfl

end Program

end Offside
