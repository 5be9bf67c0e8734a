import Offside.Proofs.Program.Evaluable
import Offside.Proofs.Tree.Settled
/-!
# Nothing that was not lowered is run

A program is lowered before it is run.  After that no word is left in it, at any depth, and lowering it once
more would change nothing (`Tree.settled_lower`).  Calls still look at the values of their arguments and
convert a number that was not lowered.  In the run of a program there is nothing to convert: from the start,
with any arguments, with and without a check of types and with any journal, a program does the same,
whatever is done to such numbers (`lowering_final`).
-/

namespace Offside

/-! ## 1. Rows that agree

A run is a row of steps.  Two rows agree if each pair of steps does, from states in which something is known;
and what is known after a step is what the second row ends in (`Ends`), since by then the first has done the
same. -/

section Agrees

variable {α β σ : Type} {P : σ → Prop} {x y : ExceptT Error (StateM σ) α}

/-- From a state with `P` both steps do the same. -/
def Agrees (P : σ → Prop) (x y : ExceptT Error (StateM σ) α) : Prop := ∀ s, P s → x.run s = y.run s

theorem agrees_refl (P : σ → Prop) (x : ExceptT Error (StateM σ) α) : Agrees P x x := fun _ _ => rfl

/-- Two programs agree if their first steps do, and their second ones from where the first step of the second
program ends. -/
theorem Agrees.bind {f g : α → ExceptT Error (StateM σ) β} {A : Error → Prop} {Q : α → σ → Prop}
    (hxy : Agrees P x y) (hy : Ends A P y Q) (hfg : ∀ a, Agrees (Q a) (f a) (g a)) :
    Agrees P (x >>= f) (y >>= g) := by
  intro s hs
  have hend := hy s hs
  rw [run_bind, run_bind, hxy s hs]
  rcases hr : y.run s with ⟨_ | a, s'⟩
  · rfl
  · rw [hr] at hend
    exact hfg a s' hend

/-- Both may look at the state. -/
theorem agrees_get_bind {f g : σ → ExceptT Error (StateM σ) β} (h : ∀ s, Agrees P (f s) (g s)) :
    Agrees P (get >>= f) (get >>= g) :=
  fun s hs => h s s hs

theorem Agrees.mono {P' : σ → Prop} (hP : ∀ s, P' s → P s) (h : Agrees P x y) : Agrees P' x y :=
  fun s hs => h s (hP s hs)

/-- What is known apart from the state can be taken out. -/
theorem agrees_and {p : Prop} (h : p → Agrees P x y) : Agrees (fun s => p ∧ P s) x y :=
  fun s hs => h hs.1 s hs.2

end Agrees

namespace Program

open Eval (Clean Runnable BareIn meaning meaningWith depthLimit enterBody)

variable {α : Type} {bare : Phrase → Prop} (f : Journal.Filter) (c : Term → Except Error Term)

/-! ## 2. Programs with another conversion

The run of a program, written once more with the conversion as a parameter.  With the conversion that lowers,
it is the run of a program. -/

/-- Calls `main` in a new frame. -/
def callMainWith (args : List String) : Eval Int :=
  Eval.inNewFrame do
    modify fun w => { w with scope := w.scope.update (argumentBindings args) }
    let main ← match (← get).scope.get? "main" with
      | some m => pure m
      | none => throw (.noKey "main")
    return exitValue (← enterBody (meaningWith c depthLimit) main)

/-- Runs a syntax tree, if `c` is done to numbers that were not lowered.  It is the run of a tree with the
conversion in the two places where terms are evaluated: the statements, and the body of `main`. -/
def runTreeWith (t : Term) (args : List String) (checkTypes : Bool) : Step Int := do
  let t ← lowerTree f t
  let t ← if checkTypes then atDesk (Typing.withSites t.enumerate) else pure t
  let _ ← atDesk (Typing.evaluate ((meaningWith c depthLimit).eval t))
  let top := (← get).desk.scope
  note f ["interpreter", "topframe"] fun _ => top.shown?.map ("the top frame is\n " ++ ·)
  if !top.top.names.contains "main" then
    atDesk (Typing.evaluate (Eval.printLine "no main function defined, exiting"))
    return 0
  if checkTypes then atDesk (checkMain args)
  atDesk (Typing.evaluate (callMainWith c args))

/-- Reads and runs a program. -/
def runWith (source : String) (args : List String) (checkTypes : Bool) : Step Int := do
  runTreeWith f c (← read f source) args checkTypes

/-- A program is run like that, with such numbers lowered. -/
theorem runWith_lowered (source : String) (args : List String) (checkTypes : Bool) :
    runWith f Eval.lowered source args checkTypes = run f source args checkTypes := by
  simp only [runWith, runTreeWith, callMainWith, Eval.meaningWith_lowered]
  rfl

/-! ## 3. Steps that leave the desk as it is

Everything before the statements are run reads the text and writes to the journal.  It may fail, but both rows
do it alike, so all that has to be known is what it gives and that the desk is the one at the start. -/

variable {P : Desk → Prop}

/-- A line may fail to be written, but all that it changes is the journal. -/
theorem ends_note (path : List String) (text? : Unit → Option String) :
    Ends (fun _ => True) (fun p => P p.desk) (note f path text?) fun _ p => P p.desk := by
  unfold note
  split
  · split
    · exact fun _ hp => hp
    · exact ends_throw trivial _
  · exact ends_pure fun _ hp => hp

/-- Lines of the journal leave the desk as it is, however many. -/
theorem ends_notes {β : Type} (path : List String) (text? : β → Unit → Option String) (bs : List β) :
    Ends (fun _ => True) (fun p => P p.desk) (forIn bs () fun b _ => do note f path (text? b); return .yield ())
      fun _ p => P p.desk := by
  induction bs with
  | nil => exact ends_pure fun _ hp => hp
  | cons b bs ih =>
    rw [List.forIn_cons]
    have hfirst : Ends (fun _ => True) (fun p => P p.desk) (do note f path (text? b); return ForInStep.yield ())
        fun step p => step = .yield () ∧ P p.desk :=
      (ends_note f path (text? b)).bind fun _ => ends_pure fun _ hp => ⟨rfl, hp⟩
    refine hfirst.bind fun step => ends_and fun hstep => ?_
    subst hstep
    exact ih

theorem ends_result (x : Except Error α) :
    Ends (fun _ => True) (fun p => P p.desk) (liftM x : Step α) fun a p => x = .ok a ∧ P p.desk :=
  ends_lift (fun _ ha _ hp => ⟨ha, hp⟩) fun _ _ => trivial

/-- A step at the desk leaves the journal as it is. -/
theorem ends_atDesk {A : Error → Prop} {x : Typing α} {Q : α → Desk → Prop} (h : Ends A P x Q) :
    Ends A (fun p => P p.desk) (atDesk x) fun a p => Q a p.desk := by
  intro p hp
  have hrun := h p.desk hp
  unfold atDesk
  rw [ExceptT.run_mk]
  rcases hr : x.run p.desk with ⟨_ | a, d⟩
  all_goals rw [hr] at hrun
  · exact hrun
  · exact hrun

theorem agrees_atDesk {x y : Typing α} (h : Agrees P x y) :
    Agrees (fun p => P p.desk) (atDesk x) (atDesk y) := by
  intro p hp
  simp only [atDesk, ExceptT.run_mk, h p.desk hp]

theorem agrees_evaluate {x y : Eval α} (h : ∀ d : Desk, P d → x.run d.toWorld = y.run d.toWorld) :
    Agrees P (Typing.evaluate x) (Typing.evaluate y) := by
  intro d hd
  simp only [Typing.evaluate, ExceptT.run_mk, h d hd]

theorem ends_readTokens (source : String) :
    Ends (fun _ => True) (fun p => P p.desk) (readTokens f source)
      fun ts p => Lexer.tokens source = .ok ts ∧ P p.desk := by
  refine (ends_result (Lexer.tokens source)).bind fun ts => ends_and fun hts => ?_
  exact (ends_note f _ _).bind fun _ => ends_pure fun _ hp => ⟨hts, hp⟩

theorem ends_layOut (ts : List Term) :
    Ends (fun _ => True) (fun p => P p.desk) (layOut f ts) fun t p => t = Layout.tree ts ∧ P p.desk := by
  refine (ends_note f _ _).bind fun _ => (ends_note f _ _).bind fun _ => ?_
  refine (ends_notes f _ _ _).bind fun _ => (ends_note f _ _).bind fun _ => ?_
  exact ends_pure fun _ hp => ⟨rfl, hp⟩

/-- What is made of a laid-out text is its syntax tree, and nothing happens at the desk. -/
theorem ends_makeTree (t : Term) :
    Ends (fun _ => True) (fun p => P p.desk) (makeTree f t)
      fun u p => Tree.parse t = .ok u ∧ P p.desk := by
  rintro ⟨d, journal⟩ hp
  obtain ⟨journal', hrun⟩ := leads_makeTree f t d journal
  rw [hrun]
  cases Tree.parse t with
  | ok u => exact ⟨rfl, hp⟩
  | error e => trivial

/-- What is read is the syntax tree of the text. -/
theorem ends_read (source : String) :
    Ends (fun _ => True) (fun p => P p.desk) (read f source)
      fun t p => parse source = .ok t ∧ P p.desk := by
  refine (ends_readTokens f source).bind fun ts => ends_and fun hts => ?_
  refine (ends_layOut f ts).bind fun tree => ends_and fun htree => ?_
  have hparse : parse source = Tree.parse tree := by
    rw [parse, hts, htree]
    rfl
  rw [hparse]
  exact ends_makeTree f tree

theorem ends_lowerTree (t : Term) :
    Ends (fun _ => True) (fun p => P p.desk) (lowerTree f t)
      fun u p => Tree.lower t = .ok u ∧ P p.desk := by
  refine (ends_notes f _ _ _).bind fun _ => (ends_result (Tree.lower t)).bind fun u => ends_and fun hu => ?_
  exact (ends_note f _ _).bind fun _ => ends_pure fun _ hp => ⟨hu, hp⟩

/-! ## 4. The call of `main`

`main` is called from a world that is clean, or after a check, which leaves no `main` that has a body.  In the
first case the body is runnable, and its evaluation does not depend on the conversion; in the second there is
nothing to evaluate. -/

/-- The world in which the body of `main` is run. -/
def enteredMain (args : List String) (w : World) : World :=
  { w with scope := w.scope.enter.update (argumentBindings args) }

/-- It is enough to look at the body of `main`. -/
theorem run_callMainWith {args : List String} {w : World}
    (h : ∀ m, w.scope.get? "main" = some m →
      (enterBody (meaningWith c depthLimit) m).run (enteredMain args w) =
        (enterBody (meaning depthLimit) m).run (enteredMain args w)) :
    (callMainWith c args).run w = (callMain args).run w := by
  have hmain : (enteredMain args w).scope.get? "main" = w.scope.get? "main" :=
    (Arithmetic.get?_arguments w.scope args).2.2
  unfold callMainWith callMain
  refine Eval.run_inNewFrame_congr ?_
  rw [run_modify_bind, run_modify_bind]
  change (get >>= _ : Eval Int).run (enteredMain args w) = (get >>= _ : Eval Int).run (enteredMain args w)
  rw [run_get_bind, run_get_bind]
  cases hm : (enteredMain args w).scope.get? "main" with
  | none => rfl
  | some m =>
    simp only [pure_bind]
    rw [run_bind, run_bind, h m (hmain ▸ hm)]

/-- All names are bound to runnable terms. -/
theorem agrees_callMain (args : List String) :
    Agrees (Fresh bare) (Typing.evaluate (callMainWith c args)) (Typing.evaluate (callMain args)) := by
  refine agrees_evaluate fun d hd => run_callMainWith c fun m hm => ?_
  have hclean : Clean bare (enteredMain args d.toWorld) :=
    Clean.update (w := { d.toWorld with scope := d.scope.enter }) hd.clean (runnable_argumentBindings args)
  exact Eval.run_enterBodyWith c depthLimit (hd.clean "main" m hm) hclean

/-- After a check `main` has no body to run.  Both rows fail at the same place, so nothing is evaluated in
which the conversions could differ. -/
theorem agrees_callMain_of_child? (args : List String) :
    Agrees (fun d => ∀ m, d.scope.get? "main" = some m → m.child? "body" = none)
      (Typing.evaluate (callMainWith c args)) (Typing.evaluate (callMain args)) := by
  refine agrees_evaluate fun d hd => run_callMainWith c fun m hm => ?_
  rw [enterBody_of_child? _ (hd m hm), enterBody_of_child? _ (hd m hm)]

/-! ## 5. Programs

Both programs are rows of the same steps, and the steps agree as long as the desk is fresh.  The statements
leave it fresh.  A check of types is the same on both sides, and if it comes to an end, what it leaves under
the name `main` has no body to be called; without a check, `main` is called from a fresh desk. -/

/-- What a program does after its statements. -/
theorem agrees_finish (args : List String) (checkTypes : Bool) :
    Agrees (fun p => Fresh bare p.desk) (do
      let top := (← get).desk.scope
      note f ["interpreter", "topframe"] fun _ => top.shown?.map ("the top frame is\n " ++ ·)
      if !top.top.names.contains "main" then
        atDesk (Typing.evaluate (Eval.printLine "no main function defined, exiting"))
        return 0
      if checkTypes then atDesk (checkMain args)
      atDesk (Typing.evaluate (callMainWith c args)) : Step Int) (do
      let top := (← get).desk.scope
      note f ["interpreter", "topframe"] fun _ => top.shown?.map ("the top frame is\n " ++ ·)
      if !top.top.names.contains "main" then
        atDesk (Typing.evaluate (Eval.printLine "no main function defined, exiting"))
        return 0
      if checkTypes then atDesk (checkMain args)
      atDesk (Typing.evaluate (callMain args))) := by
  refine agrees_get_bind fun p => (agrees_refl _ _).bind (ends_note f _ _) fun _ => ?_
  split
  · exact agrees_refl _ _
  · split
    · refine (agrees_refl _ _).bind (ends_atDesk (ends_checkMain args)) fun _ => ?_
      exact agrees_atDesk (agrees_callMain_of_child? c args)
    · exact agrees_atDesk (agrees_callMain c args)

theorem agrees_eval {t : Term} (ht : Runnable bare t) :
    Agrees (Fresh bare) (Typing.evaluate ((meaningWith c depthLimit).eval t)) (Typing.evaluate t.eval) :=
  agrees_evaluate fun _ hd => Eval.run_meaningWith c depthLimit ht hd.clean

theorem ends_enumerate {u : Term} (hu : Runnable bare u) :
    Ends (fun _ => True) (Fresh bare) (Typing.withSites u.enumerate)
      fun v d => Runnable bare v ∧ Fresh bare d :=
  fun d hd => ⟨hu.enumerate d.next, hd.clean, hd.notes, hd.keeps⟩

/-- The row of all steps.  The tree that is run is runnable (`runnable_lower`), the statements keep the world
clean, and in a clean world evaluation does not depend on the conversion (`run_meaningWith`). -/
theorem agrees_runTree {source : String} {t : Term} (ht : parse source = .ok t) (k : Host) (args : List String)
    (checkTypes : Bool) :
    Agrees (fun p => p.desk = .start k) (runTreeWith f c t args checkTypes) (runTree f t args checkTypes) := by
  unfold runTreeWith runTree
  refine (agrees_refl _ _).bind (ends_lowerTree (P := fun d => d = .start k) f t) fun u => agrees_and fun hu => ?_
  have hrunnable : Runnable (BareIn u) u := Eval.runnable_lower ht hu
  refine Agrees.mono (P := fun p => Fresh (BareIn u) p.desk) (fun p hp => ?_) ?_
  · change p.desk = .start k at hp
    rw [hp]
    exact fresh_start k
  cases checkTypes with
  | false =>
    simp only [Bool.false_eq_true, if_false, pure_bind]
    exact (agrees_atDesk (agrees_eval c hrunnable)).bind (ends_atDesk (ends_eval hrunnable)) fun _ =>
      agrees_finish f c args false
  | true =>
    simp only [if_true]
    refine (agrees_refl _ _).bind (ends_atDesk (ends_enumerate hrunnable)) fun v => agrees_and fun hv => ?_
    exact (agrees_atDesk (agrees_eval c hv)).bind (ends_atDesk (ends_eval hv)) fun _ =>
      agrees_finish f c args true

/-- **Lowering is done once and for all.**  What the syntax tree of a text is lowered to has no words in it, at
any depth: its leaves can be run and hold texts and numbers.  Lowering it once more changes nothing.  And in
every run of the program from the start, in any host, no call is given a number that was not lowered: whatever
calls do to such numbers, and they lower them, the run is the same. -/
theorem lowering_final {source : String} {t u : Term} (ht : parse source = .ok t)
    (hu : Tree.lower t = .ok u) :
    u.Everywhere Tree.Settled ∧ (∀ w, u.somewhere (Term.isWord w) = false) ∧ Tree.lower u = .ok u ∧
    (∀ f args checkTypes, runWith f Eval.lowered source args checkTypes = run f source args checkTypes) ∧
    ∀ f c k args checkTypes,
      (runWith f c source args checkTypes).run (.start k) = (run f source args checkTypes).run (.start k) := by
  obtain ⟨hsettled, kids, rfl⟩ := Tree.settled_lower ht hu
  refine ⟨hsettled, fun w => Tree.somewhere_of_settled w _ hsettled, Tree.lower_of_settled hsettled,
    fun f args checkTypes => runWith_lowered f source args checkTypes, fun f c k args checkTypes => ?_⟩
  have hrun : Agrees (fun p => p.desk = .start k) (runWith f c source args checkTypes)
      (run f source args checkTypes) :=
    (agrees_refl _ _).bind (ends_read (P := fun d => d = .start k) f source) fun _ => agrees_and fun ht =>
      agrees_runTree f c ht k args checkTypes
  exact hrun (.start k) rfl

/-- A conditional, and a call with a number. -/
def atLeastTwo : String := "f = (a) ->\n  a if a > 2 else 2\nmain = (argc, argv) ->\n  f 5\n"

def atLeastTwoTree : Term :=
  .phrase .block [
    .phrase .assign [.word .id "f", .phrase .lambda [.phrase .list [.word .id "a"],
      .phrase .block [.phrase .ifElse [.phrase .more [.word .id "a", .word .int "2"], .word .id "a",
        .word .int "2"]]]],
    .phrase .assign [.word .id "main",
      .phrase .lambda [.phrase .list [.word .id "argc", .word .id "argv"],
        .phrase .block [.phrase .call [.word .id "f", .word .int "5"]]]]]

theorem parse_atLeastTwo : parse atLeastTwo = .ok atLeastTwoTree := by
  have hhead : Lexer.Cuts "f = (a) ->".toList [.word .id "f", .symbol "=", .symbol "(", .word .id "a",
      .symbol ")", .symbol "->"] [] := .step rfl (.step rfl (.step rfl (.step rfl (.step rfl (.single rfl)))))
  have hchoice : Lexer.Cuts "  a if a > 2 else 2".toList [.word .id "a", .symbol "if", .word .id "a",
      .symbol ">", .word .int "2", .symbol "else", .word .int "2"] [] :=
    .step rfl (.step rfl (.step rfl (.step rfl (.step rfl (.step rfl (.single rfl))))))
  have hcall : Lexer.Cuts "  f 5".toList [.word .id "f", .word .int "5"] [] := .step rfl (.single rfl)
  have hlines : Text.lines atLeastTwo.toList = ["f = (a) ->".toList, "  a if a > 2 else 2".toList,
      "main = (argc, argv) ->".toList, "  f 5".toList] := by decide
  rw [parse, Lexer.tokens, hlines, Lexer.numberedLines_cons 1 (by decide),
    Lexer.line_of_cuts hhead (by simp), Lexer.numberedLines_cons 2 (by decide),
    Lexer.line_of_cuts hchoice (by simp), Lexer.numberedLines_cons 3 (by decide),
    Lexer.line_of_cuts cuts_head (by simp), Lexer.numberedLines_cons 4 (by decide),
    Lexer.line_of_cuts hcall (by simp)]
  rfl

/-- The call of the sample would fail if it converted its argument. -/
theorem lowering_final_atLeastTwo :
    parse atLeastTwo = .ok atLeastTwoTree ∧ ∃ u, Tree.lower atLeastTwoTree = .ok u ∧
      (∀ w, u.somewhere (Term.isWord w) = false) ∧ Tree.lower u = .ok u ∧
      (runWith { otherwise := false } (fun _ => .error .wrongKind) atLeastTwo ["prog"] false).run {} =
        (run { otherwise := false } atLeastTwo ["prog"] false).run {} := by
  obtain ⟨u, hu⟩ : ∃ u, Tree.lower atLeastTwoTree = .ok u := ⟨_, rfl⟩
  obtain ⟨-, hwords, hlower, -, hrun⟩ := lowering_final parse_atLeastTwo hu
  exact ⟨parse_atLeastTwo, u, hu, hwords, hlower, hrun _ _ _ _ _⟩

end Program

end Offside
