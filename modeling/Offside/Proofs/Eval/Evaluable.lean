import Offside.Proofs.Eval.Conversion
import Offside.Proofs.Eval.Runnable
/-!
# Evaluation of runnable terms

Evaluation fails in many ways.  One of them is that it comes across a term that was read and not lowered,
for which there is no rule (`unlowered?`).  Where all names are bound to runnable terms, the evaluation of a
runnable term does so only at a phrase that may be left bare, and what it gives back or binds is runnable
again (`keeps_meaning`).  So no value of an argument is a number that was not lowered, and it makes no
difference what calls do to such numbers (`run_meaningWith`).

The depth to which terms are evaluated carries the induction; for everything that evaluation is made of
there is a lemma about one level.
-/

namespace Offside

namespace Eval

variable {α β : Type} {bare : Phrase → Prop}

/-! ## 1. Failures

To have no rule for a term is one way to fail among many, and it is told from the others by the error.  Errors
about other traits than the rule of evaluation are never of this kind, even if they are about the same term.
-/

/-- The kind of the term that was read and not lowered, if the failure is to have no rule for it. -/
def unlowered? : Error → Option Kind
  | .lacks k "eval" => if k.part? = some "ast" then some k else none
  | _ => none

/-- If the failure is to have no rule for a term that was not lowered, then it is a phrase that may be left
bare.  All other failures are allowed, so that only one way to fail has to be followed through evaluation. -/
def Allowed (bare : Phrase → Prop) (e : Error) : Prop :=
  ∀ k, unlowered? e = some k → ∃ p, k = .phrase p ∧ bare p

theorem allowed_of_eq_none {e : Error} (h : unlowered? e = none) : Allowed bare e := by
  intro k hk
  rw [h] at hk
  cases hk

theorem unlowered?_lacks {k : Kind} {trait : String} (h : trait ≠ "eval") :
    unlowered? (.lacks k trait) = none := by
  unfold unlowered?
  split
  · rename_i heq
    exact absurd (Error.lacks.inj heq).2 h
  · rfl

theorem unlowered?_ofMissing (t : Term) {trait : String} (h : trait ≠ "eval") :
    unlowered? (.ofMissing t trait) = none := by
  unfold Error.ofMissing
  split
  · rfl
  · exact unlowered?_lacks h

theorem unlowered?_refuse (t : Term) {operation : String} (h : operation ≠ "eval") :
    unlowered? (t.refuse operation) = none := by
  unfold Term.refuse
  split
  · split <;> rfl
  · exact unlowered?_ofMissing t h

/-! ## 2. Computations

`Guarded` is a partial correctness triple with the invariant `Clean` before and after, and with a condition on
failures.  It is closed under binding, so for most of evaluation only the parts have to be looked at. -/

/-- Every name is bound to a runnable term. -/
def Clean (bare : Phrase → Prop) (w : World) : Prop :=
  ∀ x v, w.scope.get? x = some v → Runnable bare v

/-- In a clean world the computation fails only in ways that are allowed, and if it gives something back,
then with `Q`, and the world is clean again. -/
def Guarded (bare : Phrase → Prop) (x : Eval α) (Q : α → Prop) : Prop :=
  Ends (Allowed bare) (Clean bare) x fun a w => Q a ∧ Clean bare w

theorem guarded_pure {a : α} {Q : α → Prop} (h : Q a) : Guarded bare (pure a : Eval α) Q :=
  ends_pure fun _ hw => ⟨h, hw⟩

theorem guarded_throw {e : Error} {Q : α → Prop} (h : unlowered? e = none) :
    Guarded bare (throw e : Eval α) Q :=
  ends_throw (allowed_of_eq_none h) _

theorem Guarded.bind {x : Eval α} {f : α → Eval β} {Q : α → Prop} {R : β → Prop}
    (hx : Guarded bare x Q) (hf : ∀ a, Q a → Guarded bare (f a) R) : Guarded bare (x >>= f) R :=
  Ends.bind hx fun a w hw => hf a hw.1 w hw.2

/-- The same for what neither reads nor changes the world. -/
def Gives (Q : α → Prop) : Except Error α → Prop
  | .ok a => Q a
  | .error e => unlowered? e = none

theorem Gives.bind {x : Except Error α} {f : α → Except Error β} {Q : α → Prop} {R : β → Prop}
    (hx : Gives Q x) (hf : ∀ a, Q a → Gives R (f a)) : Gives R (x >>= f) := by
  cases x with
  | ok a => exact hf a hx
  | error e => exact hx

theorem guarded_lift {x : Except Error α} {Q : α → Prop} (h : Gives Q x) :
    Guarded bare (liftM x : Eval α) Q := by
  cases x with
  | ok a => exact guarded_pure h
  | error e => exact guarded_throw h

theorem Clean.set {w : World} (h : Clean bare w) (x : String) {v : Term} (hv : Runnable bare v) :
    Clean bare { w with scope := w.scope.set x v } := by
  intro y u hu
  simp only [Scope.get?_set] at hu
  split at hu
  · obtain rfl := Option.some.inj hu
    exact hv
  · exact h y u hu

theorem Clean.update {w : World} (h : Clean bare w) {bs : List (String × Term)}
    (hbs : ∀ b ∈ bs, Runnable bare b.2) : Clean bare { w with scope := w.scope.update bs } := by
  induction bs generalizing w with
  | nil => exact h
  | cons b bs ih =>
    obtain ⟨hb, hbs⟩ := List.forall_mem_cons.1 hbs
    exact ih (h.set b.1 hb) hbs

theorem guarded_update {bs : List (String × Term)} (hbs : ∀ b ∈ bs, Runnable bare b.2) :
    Guarded bare (modify fun w => { w with scope := w.scope.update bs }) fun _ => True :=
  fun _ hw => ⟨trivial, hw.update hbs⟩

/-- After a new frame is dropped the scope is what it was.  That the frames around are left alone is shown
apart from this (`KeepsOuter`), and without it the world after a call could not be known to be clean. -/
theorem guarded_inNewFrame {x : Eval α} {Q : α → Prop} (houter : KeepsOuter x)
    (hx : Guarded bare x Q) : Guarded bare (inNewFrame x) Q := by
  intro w hw
  have henter : Clean bare { w with scope := w.scope.enter } := hw
  have h := hx _ henter
  have hscope := keepsScope_inNewFrame houter w
  unfold inNewFrame at hscope ⊢
  rcases hr : x.run { w with scope := w.scope.enter } with ⟨r, w'⟩
  rw [hr] at h
  simp only [ExceptT.run_mk, hr] at hscope ⊢
  cases r with
  | ok a => exact ⟨h.1, by rw [Clean, hscope]; exact hw⟩
  | error e => exact h

/-! ## 3. Names and texts

The world is clean if all names are bound to runnable terms, so looking a name up gives one, and binding one
keeps the world clean.  A text may fail to be made because a value has none, but that is never for want of a
rule of evaluation.

`Keeps` is what the induction on the depth carries. -/

/-- What a name is bound to can be run, because the world is clean. -/
theorem guarded_lookup (name : Term) : Guarded bare (lookup name) (Runnable bare) := by
  unfold lookup
  split
  · rename_i s
    intro w hw
    rw [run_get_bind]
    cases hv : w.scope.get? s with
    | none => exact allowed_of_eq_none rfl
    | some v => exact ⟨hw s v hv, hw⟩
  all_goals exact guarded_throw rfl

theorem gives_nameOf (name : Term) : Gives (fun _ => True) (nameOf name) := by
  unfold nameOf
  split
  · trivial
  · rfl

theorem guarded_assign (name : Term) {v : Term} (hv : Runnable bare v) :
    Guarded bare (assign name v) fun _ => True := by
  refine (guarded_lift (gives_nameOf name)).bind fun x _ => ?_
  have hbinding : ∀ b ∈ [(x, v)], Runnable bare b.2 := List.forall_mem_singleton.2 hv
  exact guarded_update hbinding

theorem guarded_printLine (s : String) : Guarded bare (printLine s) fun _ => True :=
  fun _ hw => ⟨trivial, hw⟩

/-- What holds on one level of evaluation: runnable terms are evaluated to runnable values, arrays to arrays,
and these can be turned into text.  The frames around the innermost one are left as they are.  Arrays have a
field of their own since the arguments of a call are an array, and its elements are taken without a look at
their kind. -/
structure Keeps (bare : Phrase → Prop) (r : Meaning) : Prop where
  isolates : Isolates r
  eval : ∀ {t : Term}, Runnable bare t → Guarded bare (r.eval t) (Runnable bare)
  array : ∀ {t : Term}, Runnable bare t → isArray t = true →
    Guarded bare (r.eval t) fun v => Runnable bare v ∧ isArray v = true
  text : ∀ {t : Term}, Runnable bare t → Guarded bare (r.text t) fun _ => True

variable {r : Meaning}

theorem guarded_fillAll (hr : Keeps bare r) (ns : List (List Char)) (cs : List Char) :
    Guarded bare (fillAll r ns cs) fun _ => True := by
  induction ns generalizing cs with
  | nil => exact guarded_pure trivial
  | cons n ns ih =>
    refine (guarded_lookup _).bind fun v hv => ?_
    exact (hr.text hv).bind fun s _ => ih _

theorem guarded_elementTexts (hr : Keeps bare r) {ts : List Term} (hts : ∀ t ∈ ts, Runnable bare t) :
    Guarded bare (elementTexts r ts) fun _ => True := by
  induction ts with
  | nil => exact guarded_pure trivial
  | cons t ts ih =>
    obtain ⟨ht, hts⟩ := List.forall_mem_cons.1 hts
    refine (hr.eval ht).bind fun v hv => (hr.text hv).bind fun s _ => ?_
    exact (ih hts).bind fun ss _ => guarded_pure trivial

theorem guarded_written (t : Term) : Guarded bare (written t) fun _ => True := by
  unfold written
  split
  · exact guarded_pure trivial
  · exact guarded_throw rfl

theorem Runnable.kids {a : Action} {s : Site} {kids : List Term} (h : Runnable bare (.node (.action a) s kids))
    (ha : a ≠ .func) : ∀ u ∈ kids, Runnable bare u := by
  cases h with
  | token h => cases h
  | func => exact absurd rfl ha
  | call s hf hx _ => exact List.forall_mem_cons.2 ⟨hf, List.forall_mem_singleton.2 hx⟩
  | action _ _ _ s _ h => exact h

/-- To ask for a text fails for want of a text, if at all, and not for want of a rule of evaluation. -/
theorem guarded_textStep (hr : Keeps bare r) {t : Term} (ht : Runnable bare t) :
    Guarded bare (textStep r t) fun _ => True := by
  have interpolates : ∀ s : String, Guarded bare (interpolate r s) fun _ => True := fun s =>
    (guarded_fillAll hr _ _).bind fun cs _ => guarded_pure trivial
  unfold textStep
  split
  · exact guarded_written _
  · exact guarded_written _
  · split
    · exact interpolates _
    · exact guarded_throw rfl
  · split
    · exact interpolates _
    · exact guarded_throw rfl
  · refine (guarded_elementTexts hr (ht.kids (by decide))).bind fun ss _ => guarded_pure trivial
  · exact guarded_throw (unlowered?_refuse _ (by decide))

/-! ## 4. Values

Leaves give themselves, the value of a name, or a text.  Texts and numbers are runnable by themselves, so
nothing has to be known about commands and matches but that they give texts: this holds for every shell and
every engine. -/

theorem runnable_int (n : Int) : Runnable bare (.int n) := .datum .int none _

theorem runnable_str (s : String) : Runnable bare (.str s) := .datum .str none _

theorem runnable_bool (b : Bool) : Runnable bare (.bool b) := .datum .bool none _

theorem guarded_findMatch (pattern subject : String) :
    Guarded bare (findMatch pattern subject) fun _ => True := by
  intro w hw
  rw [run_findMatch]
  cases w.engine.compile pattern with
  | ok m => exact ⟨trivial, hw⟩
  | error e => cases e <;> exact allowed_of_eq_none rfl

/-- Named groups are texts, or nothing. -/
theorem runnable_groupBindings (f : Match) : ∀ b ∈ groupBindings f, Runnable bare b.2 := by
  intro b hb
  obtain ⟨⟨n, g⟩, -, rfl⟩ := List.mem_map.1 hb
  cases g <;> exact .token rfl

/-- What a match binds and gives back are texts and truth values, whatever the engine finds. -/
theorem guarded_regMatch (pattern : Term) (subject : String) :
    Guarded bare (regMatch pattern subject) (Runnable bare) := by
  unfold regMatch
  split
  · refine (guarded_findMatch _ subject).bind fun found _ => ?_
    cases found with
    | none => exact guarded_pure (runnable_bool false)
    | some f =>
      refine (guarded_update (runnable_groupBindings f)).bind fun _ _ => ?_
      split
      · exact guarded_pure (runnable_bool true)
      · exact guarded_pure (runnable_str _)
  · exact guarded_throw rfl

/-- Whatever a command does, it gives a text or fails as commands do. -/
theorem guarded_runCommand (words : List String) : Guarded bare (runCommand words) fun _ => True := by
  intro w hw
  rw [run_runCommand]
  cases w.shell.answer [] words with
  | ok s => exact ⟨trivial, hw⟩
  | error e => cases e <;> exact allowed_of_eq_none rfl

theorem guarded_command (line : String) : Guarded bare (command line) (Runnable bare) := by
  unfold command
  split
  · exact guarded_throw rfl
  · exact (guarded_runCommand _).bind fun s _ => guarded_pure (runnable_str s)
  · exact guarded_throw rfl

/-- Leaves.  Most of them stand for themselves; a name stands for a value that can be run, and a command for a
text. -/
theorem guarded_datum (hr : Keeps bare r) (d : Datum) (s : Site) (v : Term) :
    Guarded bare (datum r d (.leaf (.datum d) s v) v) (Runnable bare) := by
  have itself : Runnable bare (.leaf (.datum d) s v) := .datum d s v
  cases d with
  | var => exact guarded_lookup v
  | ret => exact guarded_throw rfl
  | comment => exact guarded_pure (.token rfl)
  | shellCmd => exact (hr.text itself).bind fun line _ => guarded_command line
  | _ => exact guarded_pure itself

theorem guarded_block (hr : Keeps bare r) {ts : List Term} (hts : ∀ t ∈ ts, Runnable bare t) {last : Term}
    (hlast : Runnable bare last) : Guarded bare (block r last ts) (Runnable bare) := by
  induction ts generalizing last with
  | nil => exact guarded_pure hlast
  | cons t ts ih =>
    obtain ⟨ht, hts⟩ := List.forall_mem_cons.1 hts
    exact (hr.eval ht).bind fun v hv => ih hts hv

/-- A list of parameters is no arm. -/
theorem guarded_firstArm (hr : Keeps bare r) {ts : List Term}
    (hts : ∀ t ∈ ts, t.isPhrase .list = false → Runnable bare t) :
    Guarded bare (firstArm r ts) (Runnable bare) := by
  induction ts with
  | nil => exact guarded_pure (.token rfl)
  | cons t ts ih =>
    obtain ⟨ht, hrest⟩ := List.forall_mem_cons.1 hts
    unfold firstArm
    split
    · refine (hr.eval (ht rfl)).bind fun v hv => ?_
      split
      · cases hv with
        | token h => cases h
        | arm b hv => exact guarded_pure hv
      · exact ih hrest
      · exact guarded_throw rfl
    · exact guarded_throw rfl

/-! ## 5. Operators

Operators look at two values and never at the world.  Whatever they make is a leaf, with the exception of
subscripts, which give back an element of an array; that is where the value on the left has to be runnable in
all of its parts. -/

theorem gives_truth (v : Term) : Gives (fun _ => True) v.truth := by
  unfold Term.truth
  split <;> trivial

theorem gives_intPower (x y : Int) : Gives (fun _ => True) (intPower x y) := by
  unfold intPower
  -- the bounds are too large to be computed with
  generalize fractionBound = m
  generalize exactBound = k
  repeat' split
  all_goals trivial

/-- Operations on integers give integers and truth values. -/
theorem gives_intOperation (a : Action) (x y : Int) {other : Except Error Term}
    (hother : Gives (Runnable bare) other) :
    Gives (Runnable bare) ((intOperation a x y).getD other) := by
  unfold intOperation
  split
  · exact runnable_int _
  · exact runnable_int _
  · exact runnable_int _
  · have hpower := gives_intPower x y
    rw [Option.getD_some]
    cases h : intPower x y with
    | ok n => exact runnable_int n
    | error e =>
      rw [h] at hpower
      exact hpower
  · exact runnable_bool _
  · exact runnable_bool _
  · exact runnable_bool _
  · exact hother

/-- An element of an array can be run if all can.  A failure is about the index. -/
theorem gives_element {items : List Term} (hitems : ∀ t ∈ items, Runnable bare t) (i : Term) :
    Gives (Runnable bare) (element items i) := by
  unfold element
  split
  · rename_i i
    unfold memberAt
    simp only
    -- it does not matter from which end the index counts
    generalize (if i < 0 then i + (items.length : Int) else i) = j
    split
    · rfl
    · split
      · rename_i t ht
        exact hitems t (List.mem_of_getElem? ht)
      · rfl
  · exact unlowered?_refuse _ (by decide)

/-- What an operation gives is a number, a truth value, or an element of its left operand.  Only the last one
needs that the operand is runnable. -/
theorem gives_binary (a : Action) {left : Term} (hleft : Runnable bare left) (right : Term) :
    Gives (Runnable bare) (binary a left right) := by
  unfold binary
  split
  · rfl
  · unfold operate
    simp only
    split
    · exact gives_intOperation a _ _ rfl
    · split
      · exact runnable_bool _
      · rfl
    · split
      · exact gives_element (hleft.kids (by decide)) right
      · rfl
    · split <;> rfl
    · rfl

/-! ## 6. Calls

A call evaluates its function and its arguments, pairs them with the parameters, and evaluates the body in a
new frame.  The one place where a term that was not lowered could come in is the conversion of an argument
(`loweredWith`), and a runnable value is not converted. -/

/-- A function that can be run has a body that can. -/
theorem guarded_enterBody (hr : Keeps bare r) {f : Term} (hf : Runnable bare f) :
    Guarded bare (enterBody r f) (Runnable bare) := by
  unfold enterBody
  split
  · exact hr.eval (hf.kids (by decide) _ List.mem_cons_self)
  · cases hf with
    | token h => cases h
    | func _ _ _ _ hbody => exact hr.eval hbody
    | action hfunc => exact absurd rfl hfunc
  · exact guarded_throw (unlowered?_refuse _ (by decide))

theorem gives_members (t : Term) : Gives (fun ms => t.members? = some ms) t.members := by
  unfold Term.members
  split
  · assumption
  · rfl

/-- That something has no parameters is no want of a rule of evaluation. -/
theorem gives_parametersOf (f : Term) : Gives (fun _ => True) (parametersOf f) := by
  unfold parametersOf
  split
  · trivial
  · trivial
  · trivial
  · split
    · trivial
    · exact unlowered?_ofMissing _ (by decide)

/-- The arguments of a call are runnable: where it takes apart a function, a list of parameters may be left
bare. -/
theorem gives_argumentList {a : Term} (ha : Runnable bare a) (h : isArray a = true ∨ bare .list) :
    Gives (fun vs => ∀ v ∈ vs, Runnable bare v) (argumentList a) := by
  unfold argumentList
  split
  · split
    · exact List.forall_mem_singleton.2 ha
    · rfl
  · unfold Term.members
    split
    · rename_i ms hms
      rcases h with harray | hlist
      · cases a with
        | node k s kids =>
          unfold isArray at harray
          split at harray
          · rename_i heq
            obtain ⟨rfl, rfl, rfl⟩ := Term.node.inj heq
            obtain rfl := Option.some.inj hms
            exact ha.kids (by decide)
          · cases harray
        | _ => cases harray
      · exact fun m hm => ha.members hms m hm (.inr hlist)
    · rfl

/-- A runnable value is no number that was not lowered. -/
theorem loweredWith_of_runnable (c : Term → Except Error Term) {v : Term} (hv : Runnable bare v) :
    loweredWith c v = .ok v := by
  unfold loweredWith
  split
  · cases hv with
    | token h => cases h
  · rfl

theorem gives_value (t : Term) : Gives (fun _ => True) t.value := by
  unfold Term.value
  split
  · trivial
  · trivial
  · exact unlowered?_ofMissing _ (by decide)

/-- The arguments are evaluated from left to right, and each value is bound as it is, as there is nothing to
convert. -/
theorem guarded_bindingsWith (c : Term → Except Error Term) (hr : Keeps bare r) (ks : List Term)
    {vs : List Term} (hvs : ∀ v ∈ vs, Runnable bare v) :
    Guarded bare (bindingsWith c r ks vs) fun bs => ∀ b ∈ bs, Runnable bare b.2 := by
  induction ks generalizing vs with
  | nil => exact guarded_pure (List.forall_mem_nil _)
  | cons k ks ih =>
    cases vs with
    | nil => exact guarded_pure (List.forall_mem_nil _)
    | cons v vs =>
      obtain ⟨hv, hvs⟩ := List.forall_mem_cons.1 hvs
      refine (hr.eval hv).bind fun v hv => ?_
      rw [loweredWith_of_runnable c hv]
      refine (guarded_pure hv).bind fun v hv => ?_
      refine (guarded_lift (gives_value k)).bind fun name _ => ?_
      refine (guarded_lift (gives_nameOf name)).bind fun n _ => ?_
      exact (ih hvs).bind fun bs hbs => guarded_pure (List.forall_mem_cons.2 ⟨hv, hbs⟩)

/-- What a call is given is an array, or it may be taken apart like a function. -/
theorem Keeps.eval_argument (hr : Keeps bare r) {x : Term} (hx : Runnable bare x)
    (h : isArray x = true ∨ bare .list) :
    Guarded bare (r.eval x) fun a => Runnable bare a ∧ (isArray a = true ∨ bare .list) := by
  rcases h with harray | hlist
  · exact Ends.imp (hr.array hx harray) (fun _ he => he) fun _ _ hv => ⟨⟨hv.1.1, .inl hv.1.2⟩, hv.2⟩
  · exact Ends.imp (hr.eval hx) (fun _ he => he) fun _ _ hv => ⟨⟨hv.1, .inr hlist⟩, hv.2⟩

/-- A call gets hold of a function and of arguments that can be run.  That the arguments may have members is
used here: what is not an array could only be unpacked where lists of parameters may stand by themselves. -/
theorem guarded_operandsWith (c : Term → Except Error Term) (hr : Keeps bare r) {func args : Term}
    (hfunc : Runnable bare func) (hargs : Runnable bare args) (h : isArray args = true ∨ bare .list) :
    Guarded bare (operandsWith c r func args) fun p =>
      Runnable bare p.1 ∧ ∀ b ∈ p.2, Runnable bare b.2 := by
  refine (hr.eval hfunc).bind fun f hf => (hr.eval_argument hargs h).bind fun a ha => ?_
  refine (guarded_lift (gives_parametersOf f)).bind fun params _ => ?_
  refine (guarded_lift (gives_members params)).bind fun ks _ => ?_
  refine (guarded_lift (gives_argumentList ha.1 ha.2)).bind fun vs hvs => ?_
  split
  · exact (guarded_throw (Q := fun _ => False) rfl).bind fun _ h => h.elim
  · exact (guarded_bindingsWith c hr ks hvs).bind fun bs hbs => guarded_pure ⟨hf, hbs⟩

theorem guarded_runBody (hr : Keeps bare r) {f : Term} (hf : Runnable bare f) {bs : List (String × Term)}
    (hbs : ∀ b ∈ bs, Runnable bare b.2) : Guarded bare (runBody r f bs) (Runnable bare) := by
  have hbody := (guarded_update hbs).bind fun _ _ => guarded_enterBody hr hf
  exact guarded_inNewFrame (congruence_keepsOuter.bindAndEnter hr.isolates.related f bs).2 hbody

theorem guarded_callWith (c : Term → Except Error Term) (hr : Keeps bare r) {func args : Term}
    (hfunc : Runnable bare func) (hargs : Runnable bare args) (h : isArray args = true ∨ bare .list) :
    Guarded bare (callWith c r func args) (Runnable bare) :=
  (guarded_operandsWith c hr hfunc hargs h).bind fun _ hp => guarded_runBody hr hp.1 hp.2

/-! ## 7. All of evaluation

One level, kind by kind, and then the induction on the depth.  Arrays are carried along separately, since a
call takes the elements of its argument out of an array without evaluating it again. -/

/-! One lemma for each kind of node that does more than to evaluate its children. -/

section

variable {x y z : Term}

theorem guarded_print (hr : Keeps bare r) (t : Term) (hx : Runnable bare x) :
    Guarded bare (action r .print t [x]) (Runnable bare) := by
  refine (hr.eval hx).bind fun v hv => (hr.text hv).bind fun s _ => ?_
  exact (guarded_printLine s).bind fun _ _ => guarded_pure hv

theorem guarded_check (hr : Keeps bare r) (t : Term) (hx : Runnable bare x) :
    Guarded bare (action r .check t [x]) (Runnable bare) := by
  refine (hr.eval hx).bind fun v hv => ?_
  refine (guarded_lift (gives_truth v)).bind fun b _ => ?_
  split
  · exact guarded_pure hv
  · exact guarded_throw rfl

theorem guarded_match (hr : Keeps bare r) (t : Term) (hx : Runnable bare x) (hy : Runnable bare y) :
    Guarded bare (action r .regMatch t [x, y]) (Runnable bare) := by
  refine (hr.eval hx).bind fun left _ => ?_
  refine (hr.eval hy).bind fun right hright => ?_
  split
  · exact (hr.text hright).bind fun s _ => guarded_regMatch _ s
  · split <;> exact guarded_throw rfl
  · exact guarded_throw rfl

theorem guarded_assignment (hr : Keeps bare r) (t : Term) (hy : Runnable bare y) :
    Guarded bare (action r .assign t [x, y]) (Runnable bare) := by
  refine (hr.eval hy).bind fun v hv => ?_
  split
  · exact (guarded_assign _ hv).bind fun _ _ => guarded_pure hv
  · exact (guarded_throw (Q := fun _ => False) (unlowered?_refuse _ (by decide))).bind
      fun _ h => h.elim

theorem guarded_ifThen (hr : Keeps bare r) (t : Term) (hx : Runnable bare x) (hy : Runnable bare y) :
    Guarded bare (action r .ifThen t [x, y]) (Runnable bare) := by
  refine (hr.eval hx).bind fun v _ => ?_
  refine (guarded_lift (gives_truth v)).bind fun b _ => ?_
  split
  · exact (hr.eval hy).bind fun v hv => guarded_pure (.arm true hv)
  · exact guarded_pure (.arm false (.token rfl))

theorem guarded_ifElse (hr : Keeps bare r) (t : Term) (hx : Runnable bare x) (hy : Runnable bare y)
    (hz : Runnable bare z) : Guarded bare (action r .ifElse t [x, y, z]) (Runnable bare) := by
  refine (hr.eval hx).bind fun v _ => ?_
  refine (guarded_lift (gives_truth v)).bind fun b _ => ?_
  split
  · exact hr.eval hy
  · exact hr.eval hz

theorem guarded_callBare (hr : Keeps bare r) (t : Term) (hx : Runnable bare x) :
    Guarded bare (action r .callBare t [x]) (Runnable bare) := by
  have hbody := (hr.eval hx).bind fun f hf => guarded_enterBody hr hf
  have houter : KeepsOuter (do enterBody r (← r.eval x)) :=
    (hr.isolates.eval x).bind fun f => keepsOuter_enterBody hr.isolates f
  exact guarded_inNewFrame houter hbody

/-- The value on the right takes the place of the arguments, whatever it is, so a list of parameters may be
taken apart there. -/
theorem guarded_composeR (hr : Keeps bare r) (t : Term) (hx : Runnable bare x) (hy : Runnable bare y)
    (hlist : bare .list) : Guarded bare (action r .composeR t [x, y]) (Runnable bare) := by
  refine (hr.eval hy).bind fun right hright => ?_
  refine (hr.eval hx).bind fun left hleft => ?_
  exact hr.eval (.call none hleft hright (.inr hlist))

end

/-- One level of evaluation at a node.  A function is its own value, and what is inside of it need not be
runnable; the children of every other node are. -/
theorem guarded_action (hr : Keeps bare r) (a : Action) (s : Site) (kids : List Term)
    (h : Runnable bare (.node (.action a) s kids)) :
    Guarded bare (action r a (.node (.action a) s kids) kids) (Runnable bare) := by
  by_cases hfunc : a = .func
  · subst hfunc
    exact guarded_pure h
  have hkids := h.kids hfunc
  generalize ht : Term.node (.action a) s kids = t at h
  fun_cases action r a t kids with
  | case1 => exact guarded_pure h
  | case2 => exact guarded_pure h
  | case3 => exact guarded_pure h
  | case4 => exact guarded_block hr hkids (.token rfl)
  | case5 x => exact hr.eval (hkids x (by simp))
  | case6 x => exact guarded_print hr t (hkids x (by simp))
  | case7 x => exact guarded_check hr t (hkids x (by simp))
  | case8 x y => exact guarded_match hr t (hkids x (by simp)) (hkids y (by simp))
  | case9 x y => exact guarded_assignment hr t (hkids y (by simp))
  | case10 c x => exact guarded_ifThen hr t (hkids c (by simp)) (hkids x (by simp))
  | case11 c x y => exact guarded_ifElse hr t (hkids c (by simp)) (hkids x (by simp)) (hkids y (by simp))
  | case12 x =>
    refine (guarded_lift (gives_members x)).bind fun ms hms => guarded_firstArm hr fun m hm hlist => ?_
    exact (hkids x (by simp)).members hms m hm (.inl hlist)
  | case13 x => exact guarded_callBare hr t (hkids x (by simp))
  | case14 f x =>
    subst ht
    cases h with
    | token h => cases h
    | call _ hf hx hargs =>
      rw [← callWith_lowered]
      exact guarded_callWith lowered hr hf hx hargs
    | action _ hcall => exact absurd rfl hcall
  | case15 x y =>
    subst ht
    cases h with
    | token h => cases h
    | action _ _ hcompose =>
      exact guarded_composeR hr (.node (.action .composeR) s [x, y]) (hkids x (by simp)) (hkids y (by simp))
        (hcompose rfl)
  | case16 _ x y =>
    refine (hr.eval (hkids x (by simp))).bind fun left hleft => ?_
    refine (hr.eval (hkids y (by simp))).bind fun right _ => ?_
    exact guarded_lift (gives_binary a hleft right)
  | case17 => exact guarded_throw rfl

/-- There is a rule for everything but phrases. -/
theorem allowed_refuse {t : Term} (ht : Runnable bare t) (hdatum : ∀ d s v, t ≠ .leaf (.datum d) s v)
    (haction : ∀ a s kids, t ≠ .node (.action a) s kids) : Allowed bare (t.refuse "eval") := by
  cases ht with
  | datum d s v => exact absurd rfl (hdatum d s v)
  | token h =>
    cases t with
    | nothing => exact allowed_of_eq_none rfl
    | flag => exact allowed_of_eq_none rfl
    | number => exact allowed_of_eq_none rfl
    | text => exact allowed_of_eq_none rfl
    | symbol => exact allowed_of_eq_none rfl
    | _ => cases h
  | arm => exact allowed_of_eq_none rfl
  | func => exact absurd rfl (haction _ _ _)
  | call => exact absurd rfl (haction _ _ _)
  | action => exact absurd rfl (haction _ _ _)
  | @phrase p hp =>
    intro k hk
    exact ⟨p, (Option.some.inj hk).symm, hp⟩

/-- One level of evaluation, from the next one. -/
theorem guarded_evalStep (hr : Keeps bare r) {t : Term} (ht : Runnable bare t) :
    Guarded bare (evalStep r t) (Runnable bare) := by
  unfold evalStep
  split
  · exact guarded_datum hr _ _ _
  · exact guarded_action hr _ _ _ ht
  · rename_i hdatum haction
    exact fun _ _ => allowed_refuse ht hdatum haction

/-- An array is evaluated to itself. -/
theorem guarded_evalStep_array (r : Meaning) {t : Term} (ht : Runnable bare t) (harray : isArray t = true) :
    Guarded bare (evalStep r t) fun v => Runnable bare v ∧ isArray v = true := by
  unfold isArray at harray
  split at harray
  · exact guarded_pure ⟨ht, rfl⟩
  · cases harray

/-- The same with any conversion.  It is made in calls only. -/
theorem guarded_evalStepWith (c : Term → Except Error Term) (hr : Keeps bare r) {t : Term}
    (ht : Runnable bare t) : Guarded bare (evalStepWith c r t) (Runnable bare) := by
  unfold evalStepWith
  split
  · cases ht with
    | token h => cases h
    | call _ hf hx hargs => exact guarded_callWith c hr hf hx hargs
    | action _ hcall => exact absurd rfl hcall
  · exact guarded_evalStep hr ht

theorem evalStepWith_of_isArray (c : Term → Except Error Term) (r : Meaning) {t : Term}
    (h : isArray t = true) : evalStepWith c r t = evalStep r t := by
  unfold evalStepWith
  split
  · cases h
  · rfl

/-- **Evaluation keeps to terms that can be run**, at every depth.  By induction on the depth; at depth 0
everything fails, but not for want of a rule. -/
theorem keeps_meaningWith (bare : Phrase → Prop) (c : Term → Except Error Term) :
    ∀ n : Nat, Keeps bare (meaningWith c n)
  | 0 => ⟨isolates_meaning 0, fun _ => guarded_throw rfl, fun _ _ => guarded_throw rfl,
      fun _ => guarded_throw rfl⟩
  | n + 1 =>
    have hr := keeps_meaningWith bare c n
    { isolates := isolates_meaningWith c (n + 1)
      eval := fun ht => guarded_evalStepWith c hr ht
      array := fun {t} ht harray => by
        show Guarded bare (evalStepWith c _ t) _
        rw [evalStepWith_of_isArray c _ harray]
        exact guarded_evalStep_array _ ht harray
      text := fun ht => guarded_textStep hr ht }

/-- **Evaluation of runnable terms.**  To every depth, in a world where names are bound to runnable terms,
runnable terms are evaluated to such, and the only terms without a rule that come up are phrases that may
be left bare. -/
theorem keeps_meaning (bare : Phrase → Prop) (n : Nat) : Keeps bare (meaning n) :=
  meaningWith_lowered n ▸ keeps_meaningWith bare lowered n

/-! ## 8. The conversion is never made

A number that was not lowered is no runnable term, so in a clean world none comes up as the value of an
argument.  Rather than to follow every call, evaluation is run with a conversion that fails with an error
which guarded computations cannot end with. -/

/-- A failure that is never allowed: a number that was not lowered has no rule. -/
def unruled : Error := .lacks (.leaf (.word .int)) "eval"

theorem not_allowed_unruled : ¬ Allowed bare unruled := by
  intro h
  obtain ⟨p, hp, -⟩ := h (.leaf (.word .int)) rfl
  cases hp

/-- Two computations that are the same unless the second one fails in a certain way are the same, if that way
is not allowed. -/
theorem run_eq_of_unless {x y : Eval α} {Q : α → Prop} (h : Unless unruled x y) (hy : Guarded bare y Q)
    {w : World} (hw : Clean bare w) : x.run w = y.run w := by
  refine (h w).resolve_left fun hfails => ?_
  have hrun := hy w hw
  rcases hr : y.run w with ⟨s, w'⟩
  rw [hr] at hfails hrun
  subst hfails
  exact not_allowed_unruled hrun

/-- **The conversion is never made.**  In a clean world a runnable term has the same value, whatever is done
to numbers that were not lowered.  For a conversion that fails, evaluation is guarded, and so it does not fail
like that; for any other conversion it does the same unless that failure comes up. -/
theorem run_meaningWith (c : Term → Except Error Term) (n : Nat) {t : Term} (ht : Runnable bare t) {w : World}
    (hw : Clean bare w) : ((meaningWith c n).eval t).run w = ((meaning n).eval t).run w := by
  -- all conversions do the same as one that fails, which does not come to that
  have hfailing : ∀ c, ((meaningWith c n).eval t).run w =
      ((meaningWith (fun _ => .error unruled) n).eval t).run w := fun c =>
    run_eq_of_unless ((unless_meaningWith c unruled n).eval t) ((keeps_meaningWith bare _ n).eval ht) hw
  rw [hfailing c, ← meaningWith_lowered n, hfailing lowered]

/-- The conversion of arguments makes no difference to the body of a function that can be run. -/
theorem run_enterBodyWith (c : Term → Except Error Term) (n : Nat) {f : Term} (hf : Runnable bare f)
    {w : World} (hw : Clean bare w) :
    (enterBody (meaningWith c n) f).run w = (enterBody (meaning n) f).run w := by
  unfold enterBody
  split
  · exact run_meaningWith c n (hf.kids (by decide) _ List.mem_cons_self) hw
  · cases hf with
    | token h => cases h
    | func _ _ _ _ hbody => exact run_meaningWith c n hbody hw
    | action hfunc => exact absurd rfl hfunc
  · rfl

end Eval

end Offside
