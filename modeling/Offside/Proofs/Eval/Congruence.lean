import Offside.Eval.Basic
import Offside.Proofs.Sequencing
/-!
# What evaluation is made of

However long the definition of evaluation is, it does few things to a world: it looks names up, binds
names in the innermost frame, prints lines, runs commands, asks the engine for matches, and runs something in
a new frame.  All else is giving a result, failing, and doing one thing after the other.

So to show that evaluation in one setting goes like evaluation in another one, it is enough to compare
these few things.  A relation between computations that respects them (`Congruence`) respects one level
of evaluation (`related_step`): if the values and texts of all terms on the next level are related, then
so are those on this level.
-/

namespace Offside

namespace Eval

/-! ## 1. The two parts of a call

What a call does in the frame of the caller and what it does in its own are separated here, because results
about scopes treat the two differently. -/

/-- What a call evaluates in the frame of the caller: the function, the arguments, and each argument
once more.  It gives back the function and the bindings of its parameters. -/
def operands (r : Meaning) (func args : Term) : Eval (Term × List (String × Term)) := do
  let f ← r.eval func
  let a ← r.eval args
  let ks ← (← parametersOf f).members
  let vs ← argumentList a
  if ks.length ≠ vs.length then throw .argumentCount
  return (f, ← bindings r ks vs)

/-- What a call does after that, in a frame of its own. -/
def runBody (r : Meaning) (f : Term) (bs : List (String × Term)) : Eval Term :=
  inNewFrame do
    modify fun w => { w with scope := w.scope.update bs }
    enterBody r f

/-- A call is its two parts, one after the other.  The first changes the frame of the caller at most, the
second opens a frame and drops it. -/
theorem call_eq_operands_runBody (r : Meaning) (func args : Term) :
    call r func args = operands r func args >>= fun p => runBody r p.1 p.2 := by
  simp only [call, operands, runBody, bind_assoc]
  congr; funext f
  congr; funext a
  congr; funext k
  congr; funext ks
  congr; funext vs
  split
  · rfl
  · simp only [bind_assoc, pure_bind]

/-! ## 2. The conversion of arguments

A call turns a number that was not lowered into one that was.  To say that this never happens, evaluation is
needed with another conversion `c` in its place; with the one of the language it is evaluation
(`operandsWith_lowered`). -/

/-- What a call makes of a value, if `c` is done to numbers that were not lowered. -/
def loweredWith (c : Term → Except Error Term) : Term → Except Error Term
  | .leaf (.word .int) s v => c (.leaf (.word .int) s v)
  | t => .ok t

/-- Evaluates arguments once more and pairs them with the names of the parameters. -/
def bindingsWith (c : Term → Except Error Term) (r : Meaning) :
    List Term → List Term → Eval (List (String × Term))
  | k :: ks, v :: vs => do
    let v ← r.eval v
    let v ← loweredWith c v
    let n ← nameOf (← k.value)
    return (n, v) :: (← bindingsWith c r ks vs)
  | _, _ => return []

/-- What a call evaluates in the frame of the caller. -/
def operandsWith (c : Term → Except Error Term) (r : Meaning) (func args : Term) :
    Eval (Term × List (String × Term)) := do
  let f ← r.eval func
  let a ← r.eval args
  let ks ← (← parametersOf f).members
  let vs ← argumentList a
  if ks.length ≠ vs.length then throw .argumentCount
  return (f, ← bindingsWith c r ks vs)

/-- The conversion that is built in is one of those that can be put in. -/
theorem loweredWith_lowered (t : Term) : loweredWith lowered t = lowered t := by
  unfold loweredWith
  split
  · rfl
  · rename_i h
    unfold lowered
    split
    · exact absurd rfl (h _ _)
    · rfl

theorem bindingsWith_lowered (r : Meaning) (ks vs : List Term) :
    bindingsWith lowered r ks vs = bindings r ks vs := by
  induction ks generalizing vs with
  | nil => rfl
  | cons k ks ih =>
    cases vs with
    | nil => rfl
    | cons v vs => simp only [bindingsWith, bindings, loweredWith_lowered, ih]

/-- What is done to such numbers is to lower them. -/
theorem operandsWith_lowered (r : Meaning) (func args : Term) :
    operandsWith lowered r func args = operands r func args := by
  simp only [operandsWith, operands, bindingsWith_lowered]

/-! ## 3. What is outside

The two equations that say what is known of commands and matches: they are answered by the shell and by the
engine of the world, whatever these are. -/

/-- A command answers as the shell does, and leaves another shell. -/
theorem run_runCommand (words : List String) (w : World) :
    (runCommand words).run w =
      ((w.shell.answer [] words).mapError (·.error words), { w with shell := w.shell.after words }) := by
  unfold runCommand
  rw [run_get_bind, run_modify_bind]
  cases w.shell.answer [] words <;> rfl

/-- A match is what the engine finds. -/
theorem run_findMatch (pattern subject : String) (w : World) :
    (findMatch pattern subject).run w =
      (((w.engine.compile pattern).mapError Refusal.error).map (· subject.toList), w) := by
  unfold findMatch
  rw [run_get_bind]
  cases w.engine.compile pattern <;> rfl

/-! ## 4. Congruences

The fields of `Congruence` are the things that evaluation does to a world.  Nothing in it mentions a kind of
term, so a setting that is compared by it needs no change if a kind of term is added. -/

/-- A relation between computations that respects everything that evaluation is made of. -/
structure Congruence (R : ∀ α : Type, Eval α → Eval α → Prop) : Prop where
  pure : ∀ {α : Type} (a : α), R α (pure a) (pure a)
  throw : ∀ {α : Type} (e : Error), R α (throw e) (throw e)
  bind : ∀ {α β : Type} {x y : Eval α} {f g : α → Eval β},
    R α x y → (∀ a, R β (f a) (g a)) → R β (x >>= f) (y >>= g)
  lookup : ∀ name : Term, R Term (lookup name) (lookup name)
  update : ∀ bs : List (String × Term),
    R Unit (modify fun w => { w with scope := w.scope.update bs })
      (modify fun w => { w with scope := w.scope.update bs })
  printLine : ∀ s : String, R Unit (printLine s) (printLine s)
  runCommand : ∀ words : List String, R String (runCommand words) (runCommand words)
  findMatch : ∀ pattern subject : String,
    R (Option Match) (findMatch pattern subject) (findMatch pattern subject)
  inNewFrame : ∀ {α : Type} {x y : Eval α}, R α x y → R α (inNewFrame x) (inNewFrame y)

/-- The values and the texts of all terms are related. -/
structure Related (R : ∀ α : Type, Eval α → Eval α → Prop) (r r' : Meaning) : Prop where
  eval : ∀ t, R Term (r.eval t) (r'.eval t)
  text : ∀ t, R String (r.text t) (r'.text t)

namespace Congruence

variable {R : ∀ α : Type, Eval α → Eval α → Prop} {r r' : Meaning}

/-- What cannot read the world does the same in both. -/
theorem lift (hR : Congruence R) {α : Type} (x : Except Error α) :
    R α (liftM x : Eval α) (liftM x : Eval α) := by
  cases x with
  | ok a => exact hR.pure a
  | error e => exact hR.throw e

theorem assign (hR : Congruence R) (name v : Term) :
    R Unit (Eval.assign name v) (Eval.assign name v) := by
  refine hR.bind (hR.lift _) fun n => ?_
  exact hR.update [(n, v)]

/-! ## 5. Texts and values

One lemma for each function that evaluation is made of, in the order of their definitions.  All have the same
form: if the meanings `r` and `r'` of the next level are related, then what the function does with the one is
related to what it does with the other. -/

/-- Names are filled in one after the other, and the text of a value may depend on the meaning below. -/
theorem fillAll (hR : Congruence R) (h : Related R r r') (ns : List (List Char)) :
    ∀ cs : List Char, R (List Char) (Eval.fillAll r ns cs) (Eval.fillAll r' ns cs) := by
  induction ns with
  | nil => exact fun cs => hR.pure cs
  | cons n ns ih =>
    intro cs
    refine hR.bind (hR.lookup _) fun v => ?_
    refine hR.bind (h.text v) fun s => ?_
    exact ih _

theorem interpolate (hR : Congruence R) (h : Related R r r') (s : String) :
    R String (Eval.interpolate r s) (Eval.interpolate r' s) :=
  hR.bind (hR.fillAll h _ _) fun _ => hR.pure _

theorem elementTexts (hR : Congruence R) (h : Related R r r') (ts : List Term) :
    R (List String) (Eval.elementTexts r ts) (Eval.elementTexts r' ts) := by
  induction ts with
  | nil => exact hR.pure []
  | cons t ts ih =>
    refine hR.bind (h.eval t) fun v => ?_
    refine hR.bind (h.text v) fun s => ?_
    exact hR.bind ih fun ss => hR.pure (s :: ss)

theorem written (hR : Congruence R) (t : Term) : R String (Eval.written t) (Eval.written t) := by
  unfold Eval.written
  split
  · exact hR.pure _
  · exact hR.throw _

/-- Named groups are bound before the result is given. -/
theorem regMatch (hR : Congruence R) (pattern : Term) (subject : String) :
    R Term (Eval.regMatch pattern subject) (Eval.regMatch pattern subject) := by
  unfold Eval.regMatch
  split
  · refine hR.bind (hR.findMatch _ subject) fun found => ?_
    cases found with
    | none => exact hR.pure _
    | some f =>
      refine hR.bind (hR.update _) fun _ => ?_
      split
      · exact hR.pure _
      · exact hR.pure _
  · exact hR.throw _

theorem command (hR : Congruence R) (line : String) : R Term (Eval.command line) (Eval.command line) := by
  unfold Eval.command
  split
  · exact hR.throw _
  · exact hR.bind (hR.runCommand _) fun s => hR.pure _
  · exact hR.throw _

theorem datum (hR : Congruence R) (h : Related R r r') (d : Datum) (t v : Term) :
    R Term (Eval.datum r d t v) (Eval.datum r' d t v) := by
  cases d with
  | var => exact hR.lookup v
  | ret => exact hR.throw _
  | shellCmd => exact hR.bind (h.text t) fun line => hR.command line
  | _ => exact hR.pure _

theorem block (hR : Congruence R) (h : Related R r r') (ts : List Term) :
    ∀ last : Term, R Term (Eval.block r last ts) (Eval.block r' last ts) := by
  induction ts with
  | nil => exact fun last => hR.pure last
  | cons t ts ih =>
    intro last
    exact hR.bind (h.eval t) fun v => ih v

/-- Arms are tried in order.  What follows an arm depends on its value alone. -/
theorem firstArm (hR : Congruence R) (h : Related R r r') (ts : List Term) :
    R Term (Eval.firstArm r ts) (Eval.firstArm r' ts) := by
  induction ts with
  | nil => exact hR.pure _
  | cons t ts ih =>
    unfold Eval.firstArm
    split
    · refine hR.bind (h.eval _) fun v => ?_
      split
      · exact hR.pure _
      · exact ih
      · exact hR.throw _
    · exact hR.throw _

/-! ## 6. Calls

A call evaluates the function and the arguments, puts arguments and parameters together, opens a frame, binds,
and enters the body.  Of all this only the new frame and the bindings touch the world, and both are among the
things that a congruence respects.

The part that converts arguments is stated for two conversions (`bindingsWith`, `operandsWith`), since they
are what the evaluations of `Offside.Proofs.Eval.Conversion` differ in. -/

theorem enterBody (hR : Congruence R) (h : Related R r r') (f : Term) :
    R Term (Eval.enterBody r f) (Eval.enterBody r' f) := by
  unfold Eval.enterBody
  split
  · exact h.eval _
  · exact h.eval _
  · exact hR.throw _

section

variable {c c' : Term → Except Error Term}

/-- The two sides may convert arguments differently, as long as the relation allows for it.  Everything else
about calls asks for nothing new. -/
theorem bindingsWith (hR : Congruence R)
    (hc : ∀ t, R Term (liftM (loweredWith c t) : Eval Term) (liftM (loweredWith c' t) : Eval Term))
    (h : Related R r r') (ks : List Term) :
    ∀ vs : List Term,
      R (List (String × Term)) (Eval.bindingsWith c r ks vs) (Eval.bindingsWith c' r' ks vs) := by
  induction ks with
  | nil => exact fun vs => hR.pure []
  | cons k ks ih =>
    intro vs
    cases vs with
    | nil => exact hR.pure []
    | cons v vs =>
      refine hR.bind (h.eval v) fun v => ?_
      refine hR.bind (hc v) fun v => ?_
      refine hR.bind (hR.lift _) fun k => ?_
      refine hR.bind (hR.lift _) fun n => ?_
      exact hR.bind (ih vs) fun bs => hR.pure _

/-- The conversions may differ if the relation respects them. -/
theorem operandsWith (hR : Congruence R)
    (hc : ∀ t, R Term (liftM (loweredWith c t) : Eval Term) (liftM (loweredWith c' t) : Eval Term))
    (h : Related R r r') (func args : Term) :
    R (Term × List (String × Term)) (Eval.operandsWith c r func args)
      (Eval.operandsWith c' r' func args) := by
  refine hR.bind (h.eval func) fun f => ?_
  refine hR.bind (h.eval args) fun a => ?_
  refine hR.bind (hR.lift _) fun k => ?_
  refine hR.bind (hR.lift _) fun ks => ?_
  refine hR.bind (hR.lift _) fun vs => ?_
  have hpairs := hR.bind (hR.bindingsWith hc h ks vs) fun bs => hR.pure (f, bs)
  split
  · exact hR.bind (hR.throw _) fun _ => hpairs
  · exact hpairs

end

theorem operands (hR : Congruence R) (h : Related R r r') (func args : Term) :
    R (Term × List (String × Term)) (Eval.operands r func args) (Eval.operands r' func args) := by
  rw [← operandsWith_lowered, ← operandsWith_lowered]
  exact hR.operandsWith (fun t => hR.lift _) h func args

/-- What the body of a function does in the frame that was opened for it. -/
theorem bindAndEnter (hR : Congruence R) (h : Related R r r') (f : Term)
    (bs : List (String × Term)) :
    R Term (do modify fun w => { w with scope := w.scope.update bs }; Eval.enterBody r f)
      (do modify fun w => { w with scope := w.scope.update bs }; Eval.enterBody r' f) :=
  hR.bind (hR.update bs) fun _ => hR.enterBody h f

theorem call (hR : Congruence R) (h : Related R r r') (func args : Term) :
    R Term (Eval.call r func args) (Eval.call r' func args) := by
  rw [call_eq_operands_runBody, call_eq_operands_runBody]
  exact hR.bind (hR.operands h func args) fun p => hR.inNewFrame (hR.bindAndEnter h p.1 p.2)

/-! ## 7. One level of evaluation

The lemmas of the sections before are put together, kind by kind.  `Eval.action` has a case for each kind of
node and a last one for nodes with the wrong number of children.  In that last case and in the case of
operators the other side has to be opened by hand: that no earlier case applies is a hypothesis here. -/

/-- One case for each kind of node.  A node evaluates its children, looks at their values without reading the
world, and does one of the things of a congruence. -/
theorem action (hR : Congruence R) (h : Related R r r') (a : Action) (t : Term) (kids : List Term) :
    R Term (Eval.action r a t kids) (Eval.action r' a t kids) := by
  fun_cases Eval.action r a t kids with
  | case1 => exact hR.pure t
  | case2 => exact hR.pure t
  | case3 => exact hR.pure t
  | case4 => exact hR.block h kids .nothing
  | case5 x => exact h.eval x
  | case6 x =>
    refine hR.bind (h.eval x) fun v => ?_
    refine hR.bind (h.text v) fun s => ?_
    exact hR.bind (hR.printLine s) fun _ => hR.pure v
  | case7 x =>
    refine hR.bind (h.eval x) fun v => ?_
    refine hR.bind (hR.lift _) fun b => ?_
    split
    · exact hR.pure v
    · exact hR.throw _
  | case8 x y =>
    refine hR.bind (h.eval x) fun left => ?_
    refine hR.bind (h.eval y) fun right => ?_
    split
    · exact hR.bind (h.text right) fun s => hR.regMatch _ s
    · split
      · exact hR.throw _
      · exact hR.throw _
    · exact hR.throw _
  | case9 x y =>
    refine hR.bind (h.eval y) fun v => ?_
    split
    · exact hR.bind (hR.assign _ v) fun _ => hR.pure v
    · exact hR.bind (hR.throw _) fun _ => hR.pure v
  | case10 c x =>
    refine hR.bind (h.eval c) fun v => ?_
    refine hR.bind (hR.lift _) fun b => ?_
    split
    · exact hR.bind (h.eval x) fun v => hR.pure _
    · exact hR.pure _
  | case11 c x y =>
    refine hR.bind (h.eval c) fun v => ?_
    refine hR.bind (hR.lift _) fun b => ?_
    split
    · exact h.eval x
    · exact h.eval y
  | case12 x => exact hR.bind (hR.lift _) fun ts => hR.firstArm h ts
  | case13 x => exact hR.inNewFrame (hR.bind (h.eval x) fun f => hR.enterBody h f)
  | case14 f x => exact hR.call h f x
  | case15 x y =>
    refine hR.bind (h.eval y) fun right => ?_
    exact hR.bind (h.eval x) fun left => h.eval _
  | case16 _ x y =>
    -- the other side has no earlier case either, by the hypotheses of this one
    rw [Eval.action]
    · refine hR.bind (h.eval x) fun left => ?_
      exact hR.bind (h.eval y) fun right => hR.lift _
    all_goals assumption
  | case17 =>
    rw [Eval.action]
    · exact hR.throw _
    all_goals assumption

/-- **A congruence passes from one level of evaluation to the next.**  With it a statement about all of
evaluation is an induction on the depth: at depth 0 both sides fail alike, and this is the step. -/
theorem related_step (hR : Congruence R) (h : Related R r r') :
    Related R ⟨evalStep r, textStep r⟩ ⟨evalStep r', textStep r'⟩ where
  eval t := by
    show R Term (evalStep r t) (evalStep r' t)
    unfold evalStep
    split
    · exact hR.datum h _ _ _
    · exact hR.action h _ _ _
    · exact hR.throw _
  text t := by
    show R String (textStep r t) (textStep r' t)
    unfold textStep
    split
    · exact hR.written _
    · exact hR.written _
    · split
      · exact hR.interpolate h _
      · exact hR.throw _
    · split
      · exact hR.interpolate h _
      · exact hR.throw _
    · exact hR.bind (hR.elementTexts h _) fun _ => hR.pure _
    · exact hR.throw _

end Congruence

end Eval

end Offside
