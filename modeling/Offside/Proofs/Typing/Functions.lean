import Offside.Proofs.Eval.Evaluable
import Offside.Typing.Basic
/-!
# No type is found for a function

The parameters of a function get their types from what is bound to their names when the function is looked
at.  The types of the values of a program are not known then, so a parameter has no type, and a function of
such parameters has no type either (`ends_infer_function`).  A type cannot be noted against a function
without parameters at all.

Finding types evaluates nothing.  It may fail, but not because evaluation has no rule for a term, and it
leaves the frames around the innermost one alone (`calm_infer`).
-/

namespace Offside

namespace Typing

open Eval (unlowered? KeepsOuter)

variable {α β : Type} {outer : List (Frame Term)}

/-! ## 1. Steps that evaluate nothing

`Calm` is a triple with a fixed frame condition, so steps can be put together without saying in between what
they keep. -/

/-- The frames around the innermost one are these, and types are noted against the usual nodes. -/
def Around (outer : List (Frame Term)) (d : Desk) : Prop :=
  d.scope.outer = outer ∧ d.keeps = Action.keepsType

/-- The step does not fail for want of a rule of evaluation, and it leaves the frames around the innermost
one alone. -/
def Calm (outer : List (Frame Term)) (x : Typing α) : Prop :=
  Ends (unlowered? · = none) (Around outer) x fun _ => Around outer

theorem calm_pure (a : α) : Calm outer (pure a) := ends_pure fun _ h => h

theorem calm_throw {e : Error} (h : unlowered? e = none) : Calm outer (throw e : Typing α) :=
  ends_throw h _

theorem Calm.bind {x : Typing α} {f : α → Typing β} (hx : Calm outer x) (hf : ∀ a, Calm outer (f a)) :
    Calm outer (x >>= f) :=
  Ends.bind hx hf

theorem Calm.weaken {x : Typing α} (h : Calm outer x) :
    Ends (fun _ => True) (Around outer) x fun _ => Around outer :=
  Ends.imp h (fun _ _ => trivial) fun _ _ hd => hd

theorem calm_get : Calm outer (get : Typing Desk) := ends_get

theorem calm_modify {g : Desk → Desk} (h : ∀ d, (g d).scope = d.scope ∧ (g d).keeps = d.keeps) :
    Calm outer (modify g : Typing Unit) := by
  intro d hd
  obtain ⟨hscope, hkeeps⟩ := h d
  exact ⟨(congrArg Scope.outer hscope).trans hd.1, hkeeps.trans hd.2⟩

theorem calm_lift {x : Except Error α} (h : Eval.Gives (fun _ => True) x) :
    Calm outer (liftM x : Typing α) := by
  cases x with
  | ok a => exact calm_pure a
  | error e => exact calm_throw h

theorem calm_withSites (x : StateM Nat α) : Calm outer (withSites x) := fun _ h => h

/-- What is evaluated neither fails for want of a rule nor writes to the outer frames. -/
theorem calm_evaluate {x : Eval α} (hx : KeepsOuter x)
    (hfail : ∀ w e, (x.run w).1 = .error e → unlowered? e = none) : Calm outer (evaluate x) := by
  intro d hd
  have houter := hx d.toWorld
  have hfail := hfail d.toWorld
  unfold evaluate
  rw [ExceptT.run_mk]
  rcases hr : x.run d.toWorld with ⟨r, w⟩
  rw [hr] at houter hfail
  cases r with
  | ok a => exact ⟨houter.trans hd.1, hd.2⟩
  | error e => exact hfail e rfl

theorem calm_printLine (s : String) : Calm outer (evaluate (Eval.printLine s)) :=
  calm_evaluate (Eval.keepsOuter_printLine s) fun _ _ h => by cases h

/-! ## 2. Notes and signatures

Reading and making notes is calm, whatever becomes of it.  Where a trait is missing it is never the rule of
evaluation. -/

theorem calm_noted? (t : Term) (trait : String) : Calm outer (noted? t trait) := by
  unfold noted?
  split
  · exact calm_get.bind fun _ => calm_pure _
  · exact calm_pure none

theorem calm_note (t : Term) (trait : String) (v : Term) : Calm outer (note t trait v) := by
  unfold note
  split
  · exact calm_modify fun d => ⟨rfl, rfl⟩
  · exact calm_pure ()

theorem calm_missing (t : Term) {trait : String} (h : trait ≠ "eval") :
    Calm outer (throw (.ofMissing t trait) : Typing α) :=
  calm_throw (Eval.unlowered?_ofMissing t h)

/-- To ask for a type may fail if a kind of term cannot have one. -/
theorem calm_typeOf (t : Term) : Calm outer (typeOf t) := by
  unfold typeOf
  refine (calm_noted? t "type").bind fun known => ?_
  split
  · exact calm_pure _
  · split
    · exact calm_missing t (by decide)
    · exact calm_pure _
    · refine calm_get.bind fun d => ?_
      split
      · exact calm_pure _
      · exact calm_missing t (by decide)
    · exact calm_missing t (by decide)

theorem calm_setType (t v : Term) : Calm outer (setType t v) := by
  unfold setType
  split
  · refine calm_get.bind fun d => ?_
    split
    · exact calm_note _ _ v
    · exact calm_missing _ (by decide)
  · exact calm_note _ _ v

theorem gives_retOf (t : Term) : Eval.Gives (fun _ => True) (retOf t) := by
  unfold retOf
  split
  · trivial
  · exact Eval.unlowered?_ofMissing _ (by decide)

/-- A signature may not be made for want of types, which is no want of a rule of evaluation. -/
theorem gives_sigArgs (args : Term) : Eval.Gives (fun _ => True) (sigArgs args) := by
  unfold sigArgs
  split
  · trivial
  · trivial
  · split <;> trivial
  · split <;> trivial
  · split <;> trivial
  · trivial

theorem calm_signature (args ret : Term) : Calm outer (signature args ret) := by
  unfold signature
  refine (calm_lift (gives_sigArgs args)).bind fun as => ?_
  split
  · exact calm_withSites _
  · exact calm_throw rfl

/-- To want a truth value fails with the error that is given. -/
theorem calm_wantBool (ty : Term) {e : Error} (he : unlowered? e = none) :
    Calm outer (liftM (wantBool ty e) : Typing Unit) := by
  refine calm_lift ?_
  have hret := gives_retOf ty
  unfold wantBool
  cases hty : retOf ty with
  | ok k =>
    simp only [bind, Except.bind]
    split
    · exact he
    · trivial
  | error e =>
    rw [hty] at hret
    exact hret

/-- How most kinds of terms end: the type is noted and given back. -/
theorem calm_close (t ty : Term) : Calm outer (do setType t ty; return ty : Typing Term) :=
  (calm_setType t ty).bind fun _ => calm_pure ty

/-- The same for a type that is made for the term. -/
theorem calm_closeSignature (t args ret : Term) :
    Calm outer (do let ty ← signature args ret; setType t ty; return ty : Typing Term) :=
  (calm_signature args ret).bind (calm_close t)

theorem gives_sameTypes (a b : Term) : Eval.Gives (fun _ => True) (sameTypes a b) := by
  unfold sameTypes
  split
  · trivial
  · trivial
  · exact Eval.unlowered?_ofMissing _ (by decide)
  · exact Eval.unlowered?_ofMissing _ (by decide)
  · trivial

/-- A line is printed, or it cannot be written. -/
theorem calm_printTerm (t : Term) : Calm outer (printTerm t) := by
  refine calm_evaluate ?_ ?_
  · refine KeepsOuter.bind ?_ fun s => Eval.keepsOuter_printLine s
    unfold Eval.written
    split
    · exact Eval.keepsOuter_pure _
    · exact Eval.keepsOuter_throw _
  · intro w e h
    unfold Eval.written at h
    cases hplain : t.plain? with
    | some s =>
      rw [hplain] at h
      cases h
    | none =>
      rw [hplain] at h
      obtain rfl := Except.error.inj h
      rfl

/-! ## 3. Inference

The functions that look for types call each other along the term, and each of them is a row of calm steps.
Most kinds of terms end in the same way, with a type that is noted and given back (`calm_close`). -/

/-- An assignment writes to the innermost frame. -/
theorem calm_assign (name v : Term) : Calm outer (evaluate (Eval.assign name v)) := by
  refine calm_evaluate ?_ ?_
  · exact (Eval.congruence_keepsOuter.assign name v).2
  · intro w e h
    cases name with
    | text s => cases h
    | _ =>
      obtain rfl := Except.error.inj h
      rfl

/-- A variable may bind its name, in the innermost frame, and takes its type from what is bound. -/
theorem calm_inferVar (t name lvalue : Term) : Calm outer (inferVar t name lvalue) := by
  unfold inferVar
  refine (calm_typeOf t).bind fun known => (calm_lift (Eval.gives_truth known)).bind fun b => ?_
  split
  · exact calm_pure known
  · have hend : ∀ ref, Calm outer (do
        let ty ← typeOf ref
        setType t ty
        return ty : Typing Term) := fun ref => (calm_typeOf ref).bind (calm_close t)
    refine (calm_lift (Eval.gives_truth lvalue)).bind fun b => ?_
    split
    · exact (calm_assign name lvalue).bind fun _ => hend lvalue
    · refine (calm_lift (Eval.gives_nameOf name)).bind fun n => calm_get.bind fun d => ?_
      split
      · exact hend _
      · exact (calm_throw rfl).bind fun ref => hend ref

/-- An operator compares two types and notes one. -/
theorem calm_inferBinary (a : Action) (t left right : Term) : Calm outer (inferBinary a t left right) := by
  unfold inferBinary
  refine (calm_lift (gives_retOf left)).bind fun l => (calm_lift (gives_retOf right)).bind fun r => ?_
  split
  all_goals
    split
    · exact (calm_throw rfl).bind fun _ => calm_closeSignature t _ _
    · exact calm_closeSignature t _ _

mutual

/-- **Finding a type evaluates nothing.** -/
theorem calm_infer (t : Term) : Calm outer (infer t) := by
  fun_cases infer t with
  | case1 s name => exact calm_inferVar _ name .nothing
  | case2 => exact calm_missing _ (by decide)
  | case3 d s v => exact calm_closeSignature _ _ _
  | case4 s items => exact (calm_printLine _).bind fun _ => calm_closeSignature _ _ _
  | case5 s kids => exact (calm_inferRow _ kids).bind fun _ => calm_typeOf _
  | case6 s body => exact (calm_infer body).bind fun ret => calm_closeSignature _ _ ret
  | case7 s args body =>
    refine (calm_inferMembers args).bind fun tys => (calm_infer body).bind fun ret => ?_
    exact calm_closeSignature _ _ ret
  | case8 s right ls name =>
    refine (calm_infer right).bind fun _ => ?_
    exact (calm_inferVar _ name right).bind (calm_close _)
  | case9 => exact calm_throw rfl
  | case10 s arg =>
    refine (calm_infer arg).bind fun ty => (calm_setType _ ty).bind fun _ => ?_
    exact (calm_wantBool ty rfl).bind fun _ => calm_pure ty
  | case11 s iff thn =>
    refine (calm_infer iff).bind fun c => (calm_printTerm c).bind fun _ => ?_
    exact (calm_wantBool c rfl).bind fun _ => (calm_infer thn).bind (calm_close _)
  | case12 s iff thn otherwise =>
    refine (calm_infer iff).bind fun c => (calm_wantBool c rfl).bind fun _ => ?_
    refine (calm_infer thn).bind fun a => (calm_infer otherwise).bind fun b => ?_
    refine (calm_lift (gives_sameTypes a b)).bind fun same => ?_
    split
    · exact (calm_throw rfl).bind fun _ => calm_closeSignature _ _ b
    · exact calm_closeSignature _ _ b
  | case13 s arg =>
    refine (calm_inferMembers arg).bind fun tys => ?_
    split
    · exact (calm_setType _ _).bind fun _ => calm_pure _
    · exact calm_throw rfl
  | case14 => exact calm_missing _ (by decide)
  | case15 => exact calm_missing _ (by decide)
  | case16 a s arg => exact (calm_infer arg).bind (calm_close _)
  | case17 a s left right =>
    refine (calm_infer left).bind fun l => (calm_infer right).bind fun r => ?_
    exact calm_inferBinary a _ l r
  | case18 => exact calm_throw rfl
  | case19 => exact calm_throw (Eval.unlowered?_refuse _ (by decide))

theorem calm_inferMembers (t : Term) : Calm outer (inferMembers t) := by
  fun_cases inferMembers t with
  | case1 k s kids => exact calm_inferAll kids
  | case2 items => exact calm_inferAll items
  | case3 => exact calm_pure []
  | case4 => exact calm_throw rfl
  | case5 => exact calm_throw rfl
  | case6 => exact calm_throw rfl

theorem calm_inferAll (ts : List Term) : Calm outer (inferAll ts) := by
  fun_cases inferAll ts with
  | case1 => exact calm_pure []
  | case2 t ts =>
    exact (calm_infer t).bind fun ty => (calm_inferAll ts).bind fun tys => calm_pure (ty :: tys)

theorem calm_inferRow (block : Term) (ts : List Term) : Calm outer (inferRow block ts) := by
  fun_cases inferRow block ts with
  | case1 => exact calm_pure ()
  | case2 t ts =>
    refine (calm_infer t).bind fun ty => (calm_setType block ty).bind fun _ => ?_
    exact calm_inferRow block ts

end

/-! ## 4. Functions

As long as no type is known, the names of parameters are bound to terms without types, if they are bound at
all.  So no parameter has a type, and of such parameters no signature can be made. -/

/-- No type is known. -/
def Untyped (d : Desk) : Prop := ∀ e ∈ d.notes, e.2 = .nothing

theorem Untyped.lookup {d : Desk} (h : Untyped d) {k : Nat × String} {v : Term}
    (hv : d.notes.lookup k = some v) : v = .nothing := by
  obtain ⟨before, after, hnotes, -⟩ := List.lookup_eq_some_iff.1 hv
  exact h (k, v) (by simp [hnotes])

/-- Where no type is known, none is found by asking. -/
theorem ends_typeOf_untyped (t : Term) :
    Ends (fun _ => True) Untyped (typeOf t) fun ty d => ty = .nothing ∧ Untyped d := by
  have hnoted : Ends (fun _ => True) Untyped (noted? t "type")
      fun known d => (∀ v, known = some v → v = .nothing) ∧ Untyped d := by
    unfold noted?
    split
    · intro d hd
      exact ⟨fun v hv => hd.lookup hv, hd⟩
    · exact ends_pure fun d hd => ⟨fun v hv => (by cases hv), hd⟩
  unfold typeOf
  refine hnoted.bind fun known => ends_and fun hknown => ?_
  split
  · exact ends_pure fun d hd => ⟨hknown _ rfl, hd⟩
  · split
    · exact ends_throw trivial _
    · exact ends_pure fun d hd => ⟨rfl, hd⟩
    · refine ends_get.bind fun d => ?_
      split
      · exact ends_pure fun d hd => ⟨rfl, hd⟩
      · exact ends_throw trivial _
    · exact ends_throw trivial _

/-- The type of a parameter is not known, nor is that of what is bound to its name.  If its name is not bound,
finding its type fails. -/
theorem ends_infer_parameter {t : Term} (ht : Eval.IsParameter t) :
    Ends (fun _ => True) Untyped (infer t) fun ty d => ty = .nothing ∧ Untyped d := by
  obtain ⟨s, name, rfl⟩ := ht
  have hset : Ends (fun _ => True) Untyped (setType (.leaf (.datum .var) s name) .nothing)
      fun _ => Untyped := by
    intro d hd
    cases s with
    | none => exact hd
    | some n =>
      refine List.forall_mem_cons.2 ⟨rfl, fun e he => hd e ?_⟩
      exact (List.mem_filter.1 he).1
  have hend : ∀ ref, Ends (fun _ => True) Untyped (do
      let ty ← typeOf ref
      setType (.leaf (.datum .var) s name) ty
      return ty : Typing Term) fun ty d => ty = .nothing ∧ Untyped d := by
    intro ref
    refine (ends_typeOf_untyped ref).bind fun ty => ends_and fun hty => ?_
    subst hty
    exact hset.bind fun _ => ends_pure fun d hd => ⟨rfl, hd⟩
  unfold infer inferVar
  refine (ends_typeOf_untyped _).bind fun known => ends_and fun hknown => ?_
  subst hknown
  -- neither a type nor a term to assign
  refine Ends.bind (Q := fun b d => b = false ∧ Untyped d) (ends_pure fun d hd => ⟨rfl, hd⟩)
    fun b => ends_and fun hb => ?_
  subst hb
  refine Ends.bind (Q := fun b d => b = false ∧ Untyped d) (ends_pure fun d hd => ⟨rfl, hd⟩)
    fun b => ends_and fun hb => ?_
  subst hb
  refine Ends.bind (Q := fun _ => Untyped) (ends_lift (fun _ _ d hd => hd) fun _ _ => trivial) fun n => ?_
  refine ends_get.bind fun d => ?_
  split
  · exact hend _
  · exact (ends_throw trivial _).bind hend

/-- So it is with several parameters. -/
theorem ends_infer_parameters {ts : List Term} (hts : ∀ t ∈ ts, Eval.IsParameter t) :
    Ends (fun _ => True) Untyped (inferAll ts)
      fun tys _ => (∀ ty ∈ tys, ty = .nothing) ∧ tys.length = ts.length := by
  induction ts with
  | nil => exact ends_pure fun d _ => ⟨List.forall_mem_nil _, rfl⟩
  | cons t ts ih =>
    obtain ⟨ht, hts⟩ := List.forall_mem_cons.1 hts
    unfold inferAll
    refine (ends_infer_parameter ht).bind fun ty => ends_and fun hty => ?_
    refine (ih hts).bind fun tys => ends_pure fun d htys => ?_
    exact ⟨List.forall_mem_cons.2 ⟨hty, htys.1⟩, congrArg Nat.succ htys.2⟩

theorem sigArgs_parameters {tys : List Term} (htys : ∀ ty ∈ tys, ty = .nothing) (hne : tys ≠ []) :
    sigArgs (.seq tys) = .error (.argTypes (.seq tys)) := by
  cases tys with
  | nil => exact absurd rfl hne
  | cons ty tys =>
    obtain rfl := htys ty List.mem_cons_self
    rfl

/-- A function with parameters has no type, since the parameters have none. -/
theorem ends_infer_func (s s' : Site) {names : List Term} (body : Term) (hne : names ≠ [])
    (hnames : ∀ u ∈ names, Eval.IsParameter u) :
    Ends (fun _ => True) Untyped (infer (.node (.action .func) s [.node (.phrase .list) s' names, body]))
      fun _ _ => False := by
  unfold infer inferMembers
  refine (ends_infer_parameters hnames).bind fun tys => ?_
  refine Ends.bind (Q := fun _ _ => tys ≠ [] ∧ ∀ ty ∈ tys, ty = .nothing) ?_ fun ret => ?_
  · intro d htys
    have hlength : 0 < tys.length := htys.2 ▸ List.length_pos_iff.2 hne
    rcases (infer body).run d with ⟨_ | _, _⟩
    · trivial
    · exact ⟨List.length_pos_iff.1 hlength, htys.1⟩
  · intro d htys
    unfold signature
    rw [sigArgs_parameters htys.2 htys.1]
    trivial

/-- A function without parameters has a body that may have a type, but it cannot keep one. -/
theorem ends_infer_thunk (s : Site) (body : Term) :
    Ends (fun _ => True) (Around outer) (infer (.node (.action .thunk) s [body])) fun _ _ => False := by
  unfold infer
  refine (calm_infer body).weaken.bind fun ty => (calm_signature _ ty).weaken.bind fun ty' => ?_
  intro d hd
  unfold setType
  rw [bind_assoc, run_get_bind, hd.2]
  trivial

/-- **No type is found for what has a body.**  Among the terms that can be run these are functions with
parameters, functions without, and phrases that lowering has left, for which there is no rule to find a type.
-/
theorem ends_infer_function {bare : Phrase → Prop} {t : Term} (h : Eval.Runnable bare t)
    (hbody : t.child? "body" ≠ none) :
    Ends (fun _ => True) (fun d => Untyped d ∧ Around outer d) (infer t) fun _ _ => False := by
  cases h with
  | datum | arm => exact absurd rfl hbody
  | call => exact absurd rfl hbody
  | token ht => cases t <;> first | exact absurd rfl hbody | cases ht
  | func s s' hne hnames _ => exact fun d hd => ends_infer_func s s' _ hne hnames d hd.1
  | phrase => exact ends_throw trivial _
  | @action a _ _ _ s kids hfields _ =>
    by_cases ha : a = .thunk
    · subst ha
      obtain ⟨body, rfl⟩ := List.length_eq_one_iff.1 hfields
      exact fun d hd => ends_infer_thunk s body d hd.2
    · refine absurd ?_ hbody
      cases a <;> first | rfl | contradiction

/-- What has no body cannot be made to give back an integer. -/
theorem calm_returnInt {main : Term} (h : main.child? "body" = none) : Calm outer (returnInt main) := by
  unfold returnInt
  refine (calm_typeOf main).bind fun ty => (calm_lift (gives_retOf ty)).bind fun k => ?_
  split
  · exact calm_pure main
  · -- the change of the type reaches other frames, but then there is no body
    have hend : Ends (unlowered? · = none) (fun _ : Desk => True)
        (throw (.ofMissing main "body") : Typing Term) fun _ => Around outer :=
      ends_throw (Eval.unlowered?_ofMissing main (by decide)) _
    have hrevise : ∀ site new, Ends (unlowered? · = none) (Around outer) (revise site new)
        fun _ _ => True := by
      intro site new
      cases site <;> exact fun d _ => trivial
    rw [h]
    cases ty with
    | signature s args ret => exact (hrevise s _).bind fun _ => hend
    | _ => exact fun d _ => hend d trivial

end Typing

end Offside
