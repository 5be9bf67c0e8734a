import Offside.Proofs.Eval.Evaluable
import Offside.Proofs.Program.Outcome
import Offside.Proofs.Typing.CheckedMain
import Offside.Proofs.Typing.Functions
/-!
# Which programs come across a phrase that has no rule

A program is lowered before it is run, and evaluation has a rule for everything that lowering makes.  Some
phrases are left as they are.  Signs of their own, reversed compositions and commas outside of brackets have
no rule.  Neither has the list of the parameters of a function, which is not meant to be evaluated, but is
where the parts of a function are taken for values.

A program whose tree has none of these does not fail for want of a rule, and if a program does fail like
that, then at one of these phrases (`outcome_lacks_eval`).
-/

namespace Offside

/-! ## 1. Lowering

A program may fail while it is lowered.  The errors of that name kinds and numbers of children, or texts that
are no numbers.  None of them says that there is no rule for a term, so a failure of that kind comes from
running the program. -/

namespace Tree

open Eval (Gives unlowered?)

/-- That a text is no number is no want of a rule of evaluation. -/
theorem gives_build_leaf (d : Datum) (v : Term) : Gives (fun _ => True) ((LeafKind.datum d).build [v]) := by
  cases d with
  | int =>
    have hnumber : Gives (fun _ => True) v.toNumber := by
      unfold Term.toNumber
      repeat' split
      all_goals trivial
    exact hnumber.bind fun _ _ => trivial
  | _ => trivial

theorem gives_plainBuild (k : NodeKind) (kids : List Term) : Gives (fun _ => True) (k.plainBuild kids) := by
  unfold NodeKind.plainBuild
  split
  · split <;> trivial
  · trivial

/-- Neither is a wrong number of children. -/
theorem gives_build_node (a : Action) (kids : List Term) :
    Gives (fun _ => True) ((NodeKind.action a).build kids) := by
  unfold NodeKind.build
  split
  · split
    · exact gives_plainBuild _ _
    · rfl
  · split
    · exact gives_plainBuild _ _
    · rfl
  · split
    · exact (Eval.gives_members _).bind fun _ _ => trivial
    · rfl
  · split <;> trivial
  · exact gives_plainBuild _ _

/-- So lowering fails for other reasons, if at all. -/
theorem gives_lowerNode (t : Term) : Gives (fun _ => True) (lowerNode t) := by
  unfold lowerNode
  split
  · split
    · exact gives_build_leaf _ _
    · trivial
  · split
    · exact gives_build_node _ _
    · trivial
  · trivial

mutual

theorem gives_transformBelow : ∀ t : Term, Gives (fun _ => True) (t.transformBelow lowerNode)
  | .node _ _ kids => (gives_transformAll kids).bind fun _ _ => trivial
  | .nothing | .flag _ | .number _ | .text _ | .seq _ | .arm _ _ | .dent _ | .symbol _ | .kind _
  | .signature _ _ _ | .leaf _ _ _ => trivial

theorem gives_transformAll : ∀ ts : List Term, Gives (fun _ => True) (Term.transformAll lowerNode ts)
  | [] => trivial
  | t :: ts =>
    (gives_transformBelow t).bind fun u _ => (gives_lowerNode u).bind fun _ _ =>
      (gives_transformAll ts).bind fun _ _ => trivial

end

/-- A tree may fail to be lowered, but not for want of a rule of evaluation.  Lowering builds nodes and
leaves, and the errors of that are about numbers of arguments and about texts that are no numbers. -/
theorem gives_lower (t : Term) : Gives (fun _ => True) (lower t) := by
  refine (gives_lowerNode t).bind fun u _ => ?_
  cases u with
  | node k s kids => exact (gives_transformAll kids).bind fun _ _ => trivial
  | seq items => exact (gives_transformAll items).bind fun _ _ => trivial
  | text s =>
    simp only
    split <;> trivial
  | _ => rfl

end Tree

/-! ## 2. Sites

If types are to be checked, the nodes of a tree are numbered before it is run.  To be runnable is a matter of
kinds, and numbering keeps those. -/

namespace Term

/-- A node that gets a site keeps its kind, and its children get sites. -/
theorem exists_enumerate_node (k : NodeKind) (s : Site) (kids : List Term) (n : Nat) :
    ∃ s' m, ((Term.node k s kids).enumerate.run n).1 = .node k s' ((enumerateAll kids).run m).1 := by
  cases s with
  | none => exact ⟨some n, n + 1, rfl⟩
  | some i => exact ⟨some i, n, rfl⟩

theorem length_enumerateAll (ts : List Term) (n : Nat) : ((enumerateAll ts).run n).1.length = ts.length := by
  induction ts generalizing n with
  | nil => rfl
  | cons t ts ih => exact congrArg Nat.succ (ih _)

theorem enumerateAll_two (t u : Term) (n : Nat) : ((enumerateAll [t, u]).run n).1 =
    [(t.enumerate.run n).1, (u.enumerate.run (t.enumerate.run n).2).1] := rfl

/-- Each of several terms is numbered, from some number on. -/
theorem mem_enumerateAll {ts : List Term} {n : Nat} {u : Term} (hu : u ∈ ((enumerateAll ts).run n).1) :
    ∃ t ∈ ts, ∃ m, u = (t.enumerate.run m).1 := by
  induction ts generalizing n with
  | nil => cases hu
  | cons t ts ih =>
    rcases List.mem_cons.1 hu with rfl | hu
    · exact ⟨t, List.mem_cons_self, n, rfl⟩
    · obtain ⟨t', ht', hm⟩ := ih hu
      exact ⟨t', List.mem_cons_of_mem _ ht', hm⟩

end Term

namespace Eval

variable {bare : Phrase → Prop}

/-- Numbering changes sites only. -/
theorem isArray_enumerate (t : Term) (n : Nat) : isArray (t.enumerate.run n).1 = isArray t := by
  cases t with
  | node k s kids =>
    obtain ⟨s', m, h⟩ := Term.exists_enumerate_node k s kids n
    rw [h]
    cases k with
    | action a => cases a <;> rfl
    | _ => rfl
  | _ => rfl

theorem IsParameter.enumerate {t : Term} (h : IsParameter t) (n : Nat) :
    IsParameter (t.enumerate.run n).1 := by
  obtain ⟨s, v, rfl⟩ := h
  exact ⟨_, _, rfl⟩

/-- A runnable term stays so when it gets sites. -/
theorem Runnable.enumerate {t : Term} (h : Runnable bare t) (n : Nat) :
    Runnable bare (t.enumerate.run n).1 := by
  have hall : ∀ {kids : List Term}, (∀ u ∈ kids, ∀ n, Runnable bare (u.enumerate.run n).1) →
      ∀ n, ∀ u ∈ ((Term.enumerateAll kids).run n).1, Runnable bare u := by
    intro kids hkids n u hu
    obtain ⟨t, ht, m, rfl⟩ := Term.mem_enumerateAll hu
    exact hkids t ht m
  induction h generalizing n with
  | datum d => exact .datum d _ _
  | @token t ht =>
    cases t with
    | nothing | flag | number | text | symbol => exact .token rfl
    | _ => cases ht
  | arm b _ ih => exact .arm b (ih n)
  | @func s s' names body hne hnames _ ih =>
    obtain ⟨s₁, m, h⟩ := Term.exists_enumerate_node _ s [.node (.phrase .list) s' names, body] n
    obtain ⟨s₂, m', h'⟩ := Term.exists_enumerate_node (.phrase .list) s' names m
    rw [h, Term.enumerateAll_two, h']
    refine .func s₁ s₂ ?_ (fun u hu => ?_) (ih _)
    · rw [← List.length_pos_iff, Term.length_enumerateAll]
      exact List.length_pos_iff.2 hne
    · obtain ⟨t, ht, m, rfl⟩ := Term.mem_enumerateAll hu
      exact (hnames t ht).enumerate m
  | @call s f x _ _ hx ihf ihx =>
    obtain ⟨s', m, h⟩ := Term.exists_enumerate_node (.action .call) s [f, x] n
    rw [h, Term.enumerateAll_two]
    exact .call s' (ihf _) (ihx _) (by rwa [isArray_enumerate])
  | action hfunc hcall hcompose s hfields _ ih =>
    obtain ⟨s', m, h⟩ := Term.exists_enumerate_node (.action _) s _ n
    rw [h]
    refine .action hfunc hcall hcompose s' ?_ (hall ih m)
    rwa [Term.length_enumerateAll]
  | phrase hp s _ ih =>
    obtain ⟨s', m, h⟩ := Term.exists_enumerate_node (.phrase _) s _ n
    rw [h]
    exact .phrase hp s' (hall ih m)

end Eval

/-! ## 3. The statements of a program

The steps before `main` is called are put together as triples: a fresh desk before, a fresh desk after, and
errors that are allowed.  If types are to be checked, the tree is numbered first, and it can be run afterwards
as it could before. -/

namespace Program

open Eval (Allowed Clean Guarded Runnable BareIn unlowered? allowed_of_eq_none)

variable {bare : Phrase → Prop}

/-- All names are bound to runnable terms, and no types have been looked for. -/
structure Fresh (bare : Phrase → Prop) (d : Desk) : Prop where
  clean : Clean bare d.toWorld
  notes : d.notes = []
  keeps : d.keeps = Action.keepsType

theorem fresh_start (k : Host) : Fresh bare (.start k) := ⟨fun _ _ h => (by cases h), rfl, rfl⟩

/-- An evaluation leaves a desk at which no type is known, in a world where what can be run is bound. -/
theorem ends_evaluate {α : Type} {x : Eval α} {Q : α → Prop} (hx : Guarded bare x Q) :
    Ends (Allowed bare) (Fresh bare) (Typing.evaluate x) fun _ => Fresh bare := by
  intro d hd
  have hrun := hx d.toWorld hd.clean
  unfold Typing.evaluate
  rw [ExceptT.run_mk]
  rcases hr : x.run d.toWorld with ⟨r, w⟩
  rw [hr] at hrun
  cases r with
  | ok a => exact ⟨hrun.2, hd.notes, hd.keeps⟩
  | error e => exact hrun

theorem ends_eval {t : Term} (ht : Runnable bare t) :
    Ends (Allowed bare) (Fresh bare) (Typing.evaluate t.eval) fun _ => Fresh bare :=
  ends_evaluate ((Eval.keeps_meaning bare Eval.depthLimit).eval ht)

/-- The statements of a program are run from a desk on which nothing lies yet.  They end on one where all
names are bound to runnable terms, or fail as runnable terms may. -/
theorem ends_statements {source : String} {t u : Term} (ht : parse source = .ok t)
    (hu : Tree.lower t = .ok u) (checkTypes : Bool) :
    Ends (Allowed (BareIn u)) (Fresh (BareIn u)) (statements source checkTypes) fun _ => Fresh (BareIn u) := by
  have hrun : Runnable (BareIn u) u := Eval.runnable_lower ht hu
  have hend : ∀ v, Runnable (BareIn u) v → Ends (Allowed (BareIn u)) (Fresh (BareIn u))
      (do let _ ← Typing.evaluate v.eval : Typing Unit) fun _ => Fresh (BareIn u) :=
    fun v hv => (ends_eval hv).bind fun _ => ends_pure fun _ h => h
  unfold statements
  rw [ht]
  change Ends _ _ (liftM (Tree.lower t) >>= _) _
  rw [hu]
  cases checkTypes with
  | false => exact hend u hrun
  | true => exact fun d hd => hend _ (hrun.enumerate d.next) _ ⟨hd.clean, hd.notes, hd.keeps⟩

/-! ## 4. The call of `main`

What `main` is bound to is runnable, and so are its arguments.  The call is therefore one more guarded
computation. -/

theorem runnable_argumentBindings (args : List String) :
    ∀ b ∈ argumentBindings args, Runnable bare b.2 := by
  have harray : Runnable bare (.action .array (args.map .str)) := by
    refine .action (by decide) (by decide) (fun h => by cases h) none trivial fun u hu => ?_
    obtain ⟨s, -, rfl⟩ := List.mem_map.1 hu
    exact Eval.runnable_str s
  exact List.forall_mem_cons.2 ⟨Eval.runnable_int _, List.forall_mem_singleton.2 harray⟩

/-- The arguments of a program are a number and an array of texts, and these are runnable, so `main` is called
in a clean world. -/
theorem guarded_callMain (args : List String) : Guarded bare (callMain args) fun _ => True := by
  have hkeeps := Eval.keeps_meaning bare Eval.depthLimit
  have hisolates := Eval.isolates_meaning Eval.depthLimit
  unfold callMain
  refine Eval.guarded_inNewFrame ?_ ?_
  · refine (Eval.keepsOuter_update _).bind fun _ => Eval.keepsScope_get.outer.bind fun w => ?_
    split
    · exact (Eval.keepsOuter_enterBody hisolates _).bind fun v => Eval.keepsOuter_pure _
    · exact (Eval.keepsOuter_throw _).bind fun m =>
        (Eval.keepsOuter_enterBody hisolates m).bind fun v => Eval.keepsOuter_pure _
  · refine (Eval.guarded_update (runnable_argumentBindings args)).bind fun _ _ => ?_
    intro w hw
    rw [run_get_bind]
    cases hm : w.scope.get? "main" with
    | none => exact allowed_of_eq_none rfl
    | some m =>
      refine Guarded.bind (Eval.guarded_enterBody hkeeps (hw "main" m hm)) (fun v _ => ?_) w hw
      exact Eval.guarded_pure trivial

/-! ## 5. The check of `main`

A check looks for types before `main` is called.  It need not be followed in detail: it does not evaluate, so
it does not fail for want of a rule, and what it leaves behind is a `main` that cannot be called. -/

/-- What a name of the innermost frame is bound to gets sites. -/
theorem top_numbered (es : List (String × Term)) (outer : List (Frame Term)) (n : Nat) (x : String) :
    (((checkMain.numbered ⟨⟨es⟩, outer⟩).run n).1.top.get? x = none ∧ es.lookup x = none) ∨
    ∃ v m, ((checkMain.numbered ⟨⟨es⟩, outer⟩).run n).1.top.get? x = some (v.enumerate.run m).1 ∧
      es.lookup x = some v := by
  induction es generalizing n with
  | nil => exact .inl ⟨rfl, rfl⟩
  | cons e es ih =>
    obtain ⟨y, t⟩ := e
    have hcons : ((checkMain.numbered ⟨⟨(y, t) :: es⟩, outer⟩).run n).1.top =
        ⟨(y, (t.enumerate.run n).1) ::
          ((checkMain.numbered ⟨⟨es⟩, outer⟩).run (t.enumerate.run n).2).1.top.entries⟩ := by
      simp only [checkMain.numbered, List.mapM_cons, bind_assoc, pure_bind]
      rfl
    rw [hcons]
    simp only [Frame.get?, List.lookup_cons]
    cases x == y with
    | true => exact .inr ⟨t, n, rfl, rfl⟩
    | false => exact ih _

/-- The values of the present frame are numbered, and those of the frames further out are not; all can still
be run. -/
theorem runnable_numbered {d : Desk} (h : Clean bare d.toWorld) (n : Nat) {x : String} {v : Term}
    (hv : ((checkMain.numbered d.scope).run n).1.get? x = some v) : Runnable bare v := by
  have hget := h x
  unfold Scope.get? at hget hv
  rw [List.findSome?_cons] at hget hv
  rcases top_numbered d.scope.top.entries d.scope.outer n x with ⟨hnew, hold⟩ | ⟨u, m, hnew, hold⟩
  · -- the frames further out are left as they are
    change d.scope.top.get? x = none at hold
    rw [hold] at hget
    rw [hnew] at hv
    exact hget v hv
  · change d.scope.top.get? x = some u at hold
    rw [hold] at hget
    rw [hnew] at hv
    obtain rfl := Option.some.inj hv
    exact (hget u rfl).enumerate m

/-- Types are looked for in a frame that is dropped again. -/
theorem ends_checkFunction {s : Scope Term} {main : Term} (hs : s.get? "main" = some main)
    (hmain : Runnable bare main) :
    Ends (unlowered? · = none) (fun d => Typing.Untyped d ∧ Typing.Around (s.top :: s.outer) d) (do
      let _ ← Typing.infer main
      if (← Typing.retOf (← Typing.typeOf main)) ≠ .datum .int then
        let _ ← Typing.returnInt main
      modify fun d => { d with scope := d.scope.leave } : Typing Unit)
      fun _ d => ∀ m, d.scope.get? "main" = some m → m.child? "body" = none := by
  have hinfer : Ends (unlowered? · = none) (fun d => Typing.Untyped d ∧ Typing.Around (s.top :: s.outer) d)
      (Typing.infer main) fun _ d => main.child? "body" = none ∧ Typing.Around (s.top :: s.outer) d := by
    intro d hd
    have hcalm := Typing.calm_infer main d hd.2
    by_cases hbody : main.child? "body" = none
    · rcases hr : (Typing.infer main).run d with ⟨_ | _, _⟩
      all_goals rw [hr] at hcalm
      · exact hcalm
      · exact ⟨hbody, hcalm⟩
    · have hnever := Typing.ends_infer_function hmain hbody d hd
      rcases hr : (Typing.infer main).run d with ⟨_ | _, _⟩
      all_goals rw [hr] at hcalm hnever
      · exact hcalm
      · exact hnever.elim
  refine hinfer.bind fun _ => ends_and fun hbody => ?_
  have hleave : Ends (unlowered? · = none) (Typing.Around (s.top :: s.outer))
      (modify fun d => { d with scope := d.scope.leave } : Typing Unit)
      fun _ d => ∀ m, d.scope.get? "main" = some m → m.child? "body" = none := by
    intro d hd m hm
    have hleave : d.scope.leave = s := by simp only [Scope.leave, hd.1]
    simp only [hleave, hs] at hm
    obtain rfl := Option.some.inj hm
    exact hbody
  refine Ends.bind (Typing.calm_typeOf main) fun ty =>
    Ends.bind (Typing.calm_lift (Typing.gives_retOf ty)) fun k => ?_
  split
  · exact Ends.bind (Typing.calm_returnInt hbody) fun _ => hleave
  · exact hleave

/-- The names while `main` is checked: those of a scope, and those of the arguments in a frame inside. -/
structure Checking (bare : Phrase → Prop) (s : Scope Term) (d : Desk) : Prop where
  untyped : Typing.Untyped d
  around : Typing.Around (s.top :: s.outer) d
  main : d.scope.get? "main" = s.get? "main"
  runnable : ∀ v, s.get? "main" = some v → Runnable bare v

/-- **If a program is checked and passes, then `main` is not a function.**  If the check fails, then not
because a rule of evaluation is missing.  For what has a body no type is found while no types are known
(`Typing.ends_infer_function`), so only what has none gets past the check. -/
theorem ends_checkMain (args : List String) :
    Ends (unlowered? · = none) (Fresh bare) (checkMain args)
      fun _ d => ∀ m, d.scope.get? "main" = some m → m.child? "body" = none := by
  unfold checkMain
  refine Ends.bind (Q := fun _ d => ∃ s, Checking bare s d) ?_ fun _ => ?_
  · intro d hd
    refine ⟨((checkMain.numbered d.scope).run d.next).1, ?_, ⟨rfl, hd.keeps⟩, ?_, ?_⟩
    · intro e he
      change e ∈ d.notes at he
      rw [hd.notes] at he
      cases he
    · exact (Arithmetic.get?_arguments _ args).2.2
    · exact fun v hv => runnable_numbered hd.clean d.next hv
  · rintro d ⟨s, hd⟩
    rw [run_get_bind, hd.main]
    cases hm : s.get? "main" with
    | none => rfl
    | some main =>
      exact ends_checkFunction hm (hd.runnable main hm) d ⟨hd.untyped, hd.around⟩

/-- What has no body cannot be called. -/
theorem enterBody_of_child? (r : Meaning) {f : Term} (h : f.child? "body" = none) :
    Eval.enterBody r f = throw (f.refuse "Call") := by
  unfold Eval.enterBody
  split
  · cases h
  · cases h
  · rfl

/-- A `main` that has no body cannot be called, and so the program fails, but not for want of a rule. -/
theorem ends_callMain_of_child? (args : List String) :
    Ends (unlowered? · = none) (fun d => ∀ m, d.scope.get? "main" = some m → m.child? "body" = none)
      (Typing.evaluate (callMain args)) fun _ _ => False := by
  intro d hd
  obtain ⟨e, w, hrun, he⟩ : ∃ e w, (callMain args).run d.toWorld = (.error e, w) ∧ unlowered? e = none := by
    let inner : World := { d.toWorld with scope := d.scope.enter.update (argumentBindings args) }
    let after : World := { inner with scope := inner.scope.leave }
    have hmain : inner.scope.get? "main" = d.scope.get? "main" := (Arithmetic.get?_arguments d.scope args).2.2
    cases hm : d.scope.get? "main" with
    | none =>
      refine ⟨.noKey "main", after, StraightLine.run_inNewFrame ?_, rfl⟩
      rw [run_modify_bind, run_get_bind, hmain, hm]
      rfl
    | some m =>
      refine ⟨m.refuse "Call", after, StraightLine.run_inNewFrame ?_, Eval.unlowered?_refuse m (by decide)⟩
      rw [run_modify_bind, run_get_bind, hmain, hm]
      simp only [pure_bind, enterBody_of_child? _ (hd m hm)]
      rfl
  unfold Typing.evaluate
  rw [ExceptT.run_mk, hrun]
  exact he

/-- What a program does after its statements: without a check it calls `main` in a clean world, and with a
check the call fails, since what has passed has no body. -/
theorem ends_finish (args : List String) (checkTypes : Bool) (top : Scope Term) :
    Ends (Allowed bare) (Fresh bare) (finish args checkTypes top) fun _ _ => True := by
  unfold finish
  split
  · exact (ends_evaluate (Eval.guarded_printLine _)).bind fun _ => ends_pure fun _ _ => trivial
  · split
    · have hcheck : Ends _ (Fresh bare) _ _ :=
        (ends_checkMain args).bind fun _ => ends_callMain_of_child? args
      exact hcheck.imp (fun e => allowed_of_eq_none) fun _ _ _ => trivial
    · exact (ends_evaluate (guarded_callMain args)).imp (fun _ h => h) fun _ _ _ => trivial

/-- **A whole run**, with or without a check of types. -/
theorem ends_playThrough {source : String} {t u : Term} (ht : parse source = .ok t)
    (hu : Tree.lower t = .ok u) (showFrame : Bool) (args : List String) (checkTypes : Bool) :
    Ends (Allowed (BareIn u)) (Fresh (BareIn u)) (playThrough showFrame source args checkTypes)
      fun _ _ => True := by
  unfold playThrough
  refine (ends_statements ht hu checkTypes).bind fun _ => ends_get.bind fun d => ?_
  refine Ends.bind (Q := fun _ => Fresh (BareIn u)) ?_ fun _ => ends_finish args checkTypes d.scope
  unfold present
  split
  · exact ends_throw (allowed_of_eq_none rfl) _
  · exact ends_pure fun _ h => h

/-! ## 6. Programs

What was shown of the steps is now said of the outcome under a filter.  A filter can only turn the outcome
into a failure of another kind, that of a line which cannot be written. -/

/-- The outcome of a program whose tree cannot be lowered. -/
theorem playThrough_of_lower_error {source : String} {t : Term} {e : Error} (ht : parse source = .ok t)
    (he : Tree.lower t = .error e) (k : Host) (showFrame : Bool) (args : List String) (checkTypes : Bool) :
    (playThrough showFrame source args checkTypes).run (.start k) = (.error e, .start k) := by
  have hstatements : (statements source checkTypes).run (.start k) = (.error e, .start k) := by
    unfold statements
    rw [ht]
    change ((liftM (Tree.lower t) : Typing Term) >>= _).run _ = _
    rw [he]
    rfl
  unfold playThrough
  rw [run_bind, hstatements]

/-- The phrases that may be left bare have no rule: evaluated at any depth above 0 they fail, and the world is
what it was. -/
theorem run_eval_bare {p : Phrase} (hp : p ∈ .list :: Eval.inert) (n : Nat) (s : Site) (kids : List Term)
    (w : World) :
    ((Eval.meaning (n + 1)).eval (.node (.phrase p) s kids)).run w =
      (.error (.lacks (.phrase p) "eval"), w) := by
  simp only [Eval.inert, List.mem_cons, List.not_mem_nil, or_false] at hp
  rcases hp with rfl | rfl | rfl | rfl | rfl <;> rfl

/-- **What has no rule.**  What a tree is lowered to consists of terms that can be run, except for signs of
their own, reversed compositions, commas and lists of parameters, which cannot be evaluated.  If a program
that can be read fails because there is no rule for a term that was not lowered, then that is a phrase of
one of the first three kinds, and there is such a phrase in the lowered tree, or it is a list of
parameters, and somewhere in the lowered tree the parts of a function may be taken for values.  This holds
whatever the commands that the program runs and the engine answer. -/
theorem outcome_lacks_eval {source : String} {t : Term} (hlen : source.length < Text.writingBound)
    (ht : parse source = .ok t) :
    (∀ u, Tree.lower t = .ok u → u.Everywhere Eval.Lowered) ∧
    (∀ p ∈ .list :: Eval.inert, ∀ n s kids w,
      ((Eval.meaning (n + 1)).eval (.node (.phrase p) s kids)).run w =
        (.error (.lacks (.phrase p) "eval"), w)) ∧
    ∀ f host args checkTypes k, (outcome f host source args checkTypes).1 = .error (.lacks k "eval") →
      k.part? = some "ast" →
      ∃ u p, Tree.lower t = .ok u ∧ k = .phrase p ∧
        ((p ∈ Eval.inert ∧ u.somewhere (Term.isPhrase p) = true) ∨
          (p = .list ∧ u.somewhere Eval.unpacks = true)) := by
  refine ⟨?_, ?_, ?_⟩
  · intro u hu
    exact (Eval.runnable_lower ht hu).lowered
  · intro p hp n s kids w
    exact run_eval_bare hp n s kids w
  · intro f host args checkTypes k hk hpart
    have hbare : unlowered? (.lacks k "eval") = some k := if_pos hpart
    rw [outcome_eq_playThrough hlen] at hk
    cases hu : Tree.lower t with
    | error e =>
      have hfail := Tree.gives_lower t
      rw [hu] at hfail
      rw [playThrough_of_lower_error ht hu] at hk
      obtain rfl := Except.error.inj hk
      cases hbare.symm.trans hfail
    | ok u =>
      have hend := ends_playThrough ht hu (f.admits framePath) args checkTypes _ (fresh_start host)
      rcases hr : (playThrough (f.admits framePath) source args checkTypes).run (.start host) with ⟨r, d⟩
      rw [hr] at hk hend
      subst hk
      obtain ⟨p, rfl, hp⟩ := hend k hbare
      exact ⟨u, p, rfl, rfl, hp⟩

/-- A function that is called with itself. -/
def selfCall : String := "main = (argc, argv) ->\n  main main\n"

def selfCallTree : Term :=
  .phrase .block [.phrase .assign [.word .id "main",
    .phrase .lambda [.phrase .list [.word .id "argc", .word .id "argv"],
      .phrase .block [.phrase .call [.word .id "main", .word .id "main"]]]]]

theorem parse_selfCall : parse selfCall = .ok selfCallTree := by
  have hbody : Lexer.Cuts "  main main".toList [.word .id "main", .word .id "main"] [] :=
    .step rfl (.single rfl)
  have hlines : Text.lines selfCall.toList =
      ["main = (argc, argv) ->".toList, "  main main".toList] := by decide
  rw [parse, Lexer.tokens, hlines, Lexer.numberedLines_cons 1 (by decide),
    Lexer.line_of_cuts cuts_head (by simp), Lexer.numberedLines_cons 2 (by decide),
    Lexer.line_of_cuts hbody (by simp)]
  rfl

/-- The call binds the parts of the function to its parameters, and takes the first one for a value. -/
theorem outcome_lacks_eval_selfCall :
    selfCall.length < Text.writingBound ∧ parse selfCall = .ok selfCallTree ∧
    (outcome { otherwise := false } {} selfCall ["prog"] false).1 = .error (.lacks (.phrase .list) "eval") ∧
    ∃ u p, Tree.lower selfCallTree = .ok u ∧ Kind.phrase .list = .phrase p ∧
      ((p ∈ Eval.inert ∧ u.somewhere (Term.isPhrase p) = true) ∨
        (p = .list ∧ u.somewhere Eval.unpacks = true)) := by
  have hlen : selfCall.length < Text.writingBound := length_lt_writingBound (by decide)
  have hrun : (outcome { otherwise := false } {} selfCall ["prog"] false).1 =
      .error (.lacks (.phrase .list) "eval") := by
    rw [outcome_eq_playThrough hlen]
    unfold playThrough statements
    rw [parse_selfCall]
    rfl
  refine ⟨hlen, parse_selfCall, hrun, ?_⟩
  exact (outcome_lacks_eval hlen parse_selfCall).2.2 { otherwise := false } {} ["prog"] false _ hrun rfl

/-- A negative number. -/
def negative : String := "main = (argc, argv) ->\n  -5\n"

/-- A sign in front of a number is read, and there is no rule for it. -/
theorem outcome_negative :
    outcome { otherwise := false } {} negative ["prog"] false = (.error (.lacks (.phrase .minus) "eval"), "") := by
  have hbody : Lexer.Cuts "  -5".toList [.symbol "-", .word .int "5"] [] := .step rfl (.single rfl)
  have hlines : Text.lines negative.toList = ["main = (argc, argv) ->".toList, "  -5".toList] := by decide
  have hparse : parse negative = .ok (.phrase .block [.phrase .assign [.word .id "main",
      .phrase .lambda [.phrase .list [.word .id "argc", .word .id "argv"],
        .phrase .block [.phrase .minus [.word .int "5"]]]]]) := by
    rw [parse, Lexer.tokens, hlines, Lexer.numberedLines_cons 1 (by decide),
      Lexer.line_of_cuts cuts_head (by simp), Lexer.numberedLines_cons 2 (by decide),
      Lexer.line_of_cuts hbody (by simp)]
    rfl
  rw [outcome_eq_playThrough (length_lt_writingBound (by decide))]
  unfold playThrough statements
  rw [hparse]
  rfl

end Program

end Offside
