import Mathlib.Data.List.Forall2
import Offside.Proofs.Eval.Congruence
import Offside.Proofs.Journal.Writable
import Offside.Proofs.Sequencing
/-!
# Idle comments

A comment in a block is *idle* if a statement follows it.  Its value is nothing, and the statement that
follows puts another value in the place of that.  So a block may be freed from its idle comments
(`trim`) where it stands to be evaluated.

Where it stands to be looked at it may not.  The arms of a `match`, the elements of an array and the
arguments of a call are looked at, and so are the parameters of a function; everything else is evaluated
(`NodeKind.hosts`).  To *strip* a term is to trim the blocks in it that stand to be evaluated.

Stripping can be put off: to evaluate a stripped term in a stripped world is to evaluate the term as it
is, and to strip the result and the world afterwards (`mirrored_meaning`).  Errors show terms, so these
are stripped as well.  The argument goes through evaluation function by function; the depth to which
terms are evaluated carries the induction, as there is one more level for every comment that is evaluated.
-/

namespace Offside

/-! ## 1. Stripping

Which children of a node may be trimmed is a question about the kind of the node only (`NodeKind.settle`).
Where a child may or may not have been trimmed, the two sides of a comparison are related by `Pared`;
everything that only looks at the kind or the payload of a term cannot tell pared terms apart. -/

namespace Term

/-- A comment that can be run. -/
def isComment : Term → Bool
  | leaf (.datum .comment) _ (text _) => true
  | _ => false

/-- Statements without the comments that a statement follows. -/
def dropIdle : List Term → List Term
  | t :: u :: ts => if t.isComment then dropIdle (u :: ts) else t :: dropIdle (u :: ts)
  | ts => ts

/-- A block without its idle comments. -/
def trim : Term → Term
  | node (.action .block) s kids => node (.action .block) s (dropIdle kids)
  | t => t

end Term

namespace NodeKind

/-- The children of such a node are evaluated wherever they matter. -/
def hosts : NodeKind → Bool
  | phrase .select | phrase .comma | phrase .brackets | phrase .call | phrase .block | phrase .list => false
  | action .select | action .array | action .call | action .block => false
  | declared _ _ _ => false
  | _ => true

/-- The first child of such a node names parameters. -/
def isFunction : NodeKind → Bool
  | phrase .lambda | action .func => true
  | _ => false

/-- Trims the children that are evaluated. -/
def settle (k : NodeKind) (kids : List Term) : List Term :=
  if k.isFunction then kids.take 1 ++ (kids.drop 1).map Term.trim
  else if k.hosts then kids.map Term.trim
  else kids

end NodeKind

namespace Term

mutual

/-- A term without the idle comments of the blocks in it that stand to be evaluated. -/
def strip : Term → Term
  | seq items => seq (stripAll items)
  | arm b r => arm b r.strip
  | node k s kids => node k s (k.settle (stripAll kids))
  | t => t

def stripAll : List Term → List Term
  | [] => []
  | t :: ts => t.strip :: stripAll ts

end

theorem stripAll_eq_map (ts : List Term) : stripAll ts = ts.map strip := by
  induction ts with
  | nil => rfl
  | cons t ts ih => rw [stripAll, ih, List.map_cons]

/-- The second term is the first one, stripped and perhaps trimmed. -/
def Pared (t t' : Term) : Prop := t' = t.strip ∨ t' = t.strip.trim

theorem pared_strip (t : Term) : Pared t t.strip := .inl rfl

theorem forall₂_pared_map (ts : List Term) : List.Forall₂ Pared ts (ts.map strip) :=
  List.forall₂_map_right_iff.2 (List.forall₂_same.2 fun t _ => pared_strip t)

theorem forall₂_pared_trim (ts : List Term) : List.Forall₂ Pared ts ((ts.map strip).map trim) := by
  rw [List.map_map]
  exact List.forall₂_map_right_iff.2 (List.forall₂_same.2 fun _ _ => .inr rfl)

/-- The children of a node go over into those of the stripped node one by one.  Each is stripped, and where
the kind of the node evaluates blocks, trimmed as well. -/
theorem forall₂_pared_settle (k : NodeKind) (kids : List Term) :
    List.Forall₂ Pared kids (k.settle (stripAll kids)) := by
  rw [stripAll_eq_map, NodeKind.settle]
  split
  · cases kids with
    | nil => exact .nil
    | cons t ts => exact .cons (pared_strip t) (forall₂_pared_trim ts)
  · split
    · exact forall₂_pared_trim kids
    · exact forall₂_pared_map kids

theorem kindOf_strip (t : Term) : t.strip.kindOf = t.kindOf := by
  cases t <;> rfl

theorem kindOf_trim (t : Term) : t.trim.kindOf = t.kindOf := by
  unfold trim
  split <;> rfl

end Term

/-- The error with the terms in it stripped.  The operand of an assertion is one that is evaluated. -/
def Error.strip : Error → Error
  | .mixedOperands op left right => .mixedOperands op left.strip right.strip
  | .unsupported left operation => .unsupported left.strip operation
  | .assertionFailed arg => .assertionFailed arg.strip.trim
  | e => e

namespace Frame

variable {ν μ : Type} (g : ν → μ)

theorem get?_map (f : Frame ν) (name : String) : (f.map g).get? name = (f.get? name).map g := by
  obtain ⟨entries⟩ := f
  show List.lookup name (entries.map _) = (List.lookup name entries).map g
  induction entries with
  | nil => rfl
  | cons e es ih =>
    rw [List.map_cons, List.lookup_cons, List.lookup_cons]
    cases name == e.1 with
    | true => rfl
    | false => exact ih

/-- To strip values and to bind a name commute, and the order of the names is the same. -/
theorem put_map (name : String) (v : ν) (es : List (String × ν)) :
    put name (g v) (es.map fun e => (e.1, g e.2)) = (put name v es).map fun e => (e.1, g e.2) := by
  induction es with
  | nil => rfl
  | cons e es ih =>
    simp only [List.map_cons, put]
    split
    · rfl
    · rw [ih, List.map_cons]

theorem map_set (f : Frame ν) (name : String) (v : ν) :
    (f.set name v).map g = (f.map g).set name (g v) :=
  congrArg Frame.mk (put_map g name v f.entries).symm

theorem map_update (f : Frame ν) (bs : List (String × ν)) :
    (f.update bs).map g = (f.map g).update (bs.map fun b => (b.1, g b.2)) := by
  induction bs generalizing f with
  | nil => rfl
  | cons b bs ih =>
    show ((f.set b.1 b.2).update bs).map g = _
    rw [ih, map_set]
    rfl

end Frame

namespace Scope

variable {ν μ : Type} (g : ν → μ)

theorem get?_map (s : Scope ν) (name : String) : (s.map g).get? name = (s.get? name).map g := by
  obtain ⟨top, outer⟩ := s
  show List.findSome? _ ((top :: outer).map (·.map g)) = (List.findSome? _ (top :: outer)).map g
  induction top :: outer with
  | nil => rfl
  | cons f fs ih =>
    simp only [List.map_cons, List.findSome?_cons, Frame.get?_map]
    cases f.get? name with
    | some v => rfl
    | none => exact ih

theorem map_update (s : Scope ν) (bs : List (String × ν)) :
    (s.update bs).map g = (s.map g).update (bs.map fun b => (b.1, g b.2)) := by
  simp only [update, map, Frame.map_update]

theorem map_leave (s : Scope ν) : s.leave.map g = (s.map g).leave := by
  obtain ⟨top, outer⟩ := s
  cases outer <;> rfl

end Scope

/-- The world with the values in it stripped.  Nothing outside of it changes. -/
def World.strip (w : World) : World := { w with scope := w.scope.map Term.strip }

/-! ## 2. Computations in a stripped world

`Mirrors R x y` says that `y` does in the stripped world what `x` does in the world as it is: the results are
related by `R`, an error is the same up to the terms that it shows, and the worlds after both are again a
world and its stripped form.  It is kept by binding, so that a computation has to be looked at only where it
reads or changes the world. -/

namespace Eval

open Term (Pared)

variable {α β γ δ : Type}

/-- What a computation in a stripped world gives, compared with what it would give. -/
inductive Mirror (R : α → β → Prop) : Except Error α × World → Except Error β × World → Prop where
  | ok {a : α} {b : β} (w : World) (h : R a b) : Mirror R (.ok a, w) (.ok b, w.strip)
  | error (e : Error) (w : World) : Mirror R (.error e, w) (.error e.strip, w.strip)

/-- The second computation does in the stripped world what the first one does. -/
def Mirrors (R : α → β → Prop) (x : Eval α) (y : Eval β) : Prop :=
  ∀ w : World, Mirror R (x.run w) (y.run w.strip)

/-- The value is stripped. -/
def Strips (t t' : Term) : Prop := t' = t.strip

theorem mirrors_pure {R : α → β → Prop} {a : α} {b : β} (h : R a b) :
    Mirrors R (pure a) (pure b) := fun w => .ok w h

theorem mirrors_throw {R : α → β → Prop} {e e' : Error} (h : e' = e.strip) :
    Mirrors R (throw e : Eval α) (throw e' : Eval β) := by
  subst h
  exact fun w => .error e w

/-- Two rows mirror each other if their first steps do, and their second ones for results that go together.
After a failure of the first step there is nothing left to compare. -/
theorem Mirrors.bind {R : α → β → Prop} {S : γ → δ → Prop} {x : Eval α} {y : Eval β}
    {f : α → Eval γ} {g : β → Eval δ} (h : Mirrors R x y)
    (hf : ∀ a b, R a b → Mirrors S (f a) (g b)) : Mirrors S (x >>= f) (y >>= g) := by
  intro w
  have hw := h w
  rw [run_bind, run_bind]
  generalize x.run w = p at hw
  generalize y.run w.strip = q at hw
  cases hw with
  | ok w' hab => exact hf _ _ hab w'
  | error e w' => exact .error e w'

/-- What cannot read the world gives the same up to stripping. -/
inductive Agrees (R : α → β → Prop) : Except Error α → Except Error β → Prop where
  | ok {a : α} {b : β} (h : R a b) : Agrees R (.ok a) (.ok b)
  | error (e : Error) : Agrees R (.error e) (.error e.strip)

theorem Agrees.lift {R : α → β → Prop} {x : Except Error α} {y : Except Error β} (h : Agrees R x y) :
    Mirrors R (liftM x : Eval α) (liftM y : Eval β) := by
  cases h with
  | ok h => exact mirrors_pure h
  | error e => exact mirrors_throw rfl

theorem mirrors_printLine (s : String) : Mirrors Eq (printLine s) (printLine s) :=
  fun w => .ok { w with out := w.out ++ s ++ "\n" } rfl

/-- Binding names to stripped values in the stripped world is binding them to the values and stripping
afterwards. -/
theorem mirrors_update (bs : List (String × Term)) :
    Mirrors Eq (modify fun w => { w with scope := w.scope.update bs } : Eval Unit)
      (modify fun w => { w with scope := w.scope.update (bs.map fun b => (b.1, b.2.strip)) } :
        Eval Unit) := by
  intro w
  have hscope := Scope.map_update Term.strip w.scope bs
  have hok := Mirror.ok { w with scope := w.scope.update bs } (Eq.refl ())
  rw [World.strip, hscope] at hok
  exact hok

/-- Values that have nothing to strip may be bound on both sides. -/
theorem mirrors_update_plain {bs : List (String × Term)} (h : ∀ b ∈ bs, b.2.strip = b.2) :
    Mirrors Eq (modify fun w => { w with scope := w.scope.update bs } : Eval Unit)
      (modify fun w => { w with scope := w.scope.update bs } : Eval Unit) := by
  have hbs : bs.map (fun b => (b.1, b.2.strip)) = bs := by
    refine (List.map_congr_left fun b hb => ?_).trans bs.map_id
    rw [h b hb]
    rfl
  have hupdate := mirrors_update bs
  rwa [hbs] at hupdate

/-- The value of a name in the stripped world is the stripped value.  An unknown name fails alike, as the
error shows the name only. -/
theorem mirrors_lookup (name : Term) : Mirrors Strips (lookup name) (lookup name) := by
  unfold lookup
  split
  · rename_i s
    intro w
    rw [run_get_bind, run_get_bind]
    have hget : w.strip.scope.get? s = (w.scope.get? s).map Term.strip := Scope.get?_map _ _ _
    rw [hget]
    cases w.scope.get? s with
    | some v => exact .ok w rfl
    | none => exact .error _ w
  all_goals exact mirrors_throw rfl

/-- To leave the innermost frame on both sides is harmless, also after a failure. -/
theorem Mirror.leave {R : α → β → Prop} {p : Except Error α × World} {q : Except Error β × World}
    (h : Mirror R p q) :
    Mirror R (p.1, { p.2 with scope := p.2.scope.leave }) (q.1, { q.2 with scope := q.2.scope.leave }) := by
  cases h with
  | ok w hab =>
    have hok := Mirror.ok { w with scope := w.scope.leave } hab
    rw [World.strip, Scope.map_leave] at hok
    exact hok
  | error e w =>
    have herror := Mirror.error (R := R) e { w with scope := w.scope.leave }
    rw [World.strip, Scope.map_leave] at herror
    exact herror

/-- The new frame is empty in both worlds, and it is dropped in both. -/
theorem Mirrors.inNewFrame {R : α → β → Prop} {x : Eval α} {y : Eval β} (h : Mirrors R x y) :
    Mirrors R (inNewFrame x) (inNewFrame y) :=
  fun w => (h { w with scope := w.scope.enter }).leave

end Eval

/-! ## 3. Looking at stripped terms

The functions that look at values without reading the world: truth, operations, members, parameters and
arguments.  For these it is enough to compare two results (`Agrees`).  Most of them look at leaves, which
stripping leaves as they are; the errors that they raise name kinds and operations, and so there is nothing in
them to strip (`Error.Plain`). -/

namespace Term

open Eval (Agrees Strips)

theorem forall₂_isEmpty {α β : Type} {R : α → β → Prop} {as : List α} {bs : List β}
    (h : List.Forall₂ R as bs) : bs.isEmpty = as.isEmpty := by
  cases h <;> rfl

/-- Stripping does not change whether something counts as true: a list or a node has as many members as
before. -/
theorem truth_strip (t : Term) : t.strip.truth = t.truth := by
  cases t with
  | seq items =>
    show Except.ok (!(stripAll items).isEmpty) = .ok (!items.isEmpty)
    rw [stripAll_eq_map, List.isEmpty_map]
  | node k s kids =>
    show Except.ok (!(k.settle (stripAll kids)).isEmpty) = .ok (!kids.isEmpty)
    rw [forall₂_isEmpty (forall₂_pared_settle k kids)]
  | _ => rfl

theorem value_strip (t : Term) : t.strip.value = t.value := by
  cases t <;> rfl

theorem value_trim (t : Term) : t.trim.value = t.value := by
  unfold trim
  split <;> rfl

theorem Pared.value_eq {t t' : Term} (h : Pared t t') : t'.value = t.value := by
  rcases h with rfl | rfl
  · exact t.value_strip
  · rw [value_trim, value_strip]

theorem Pared.kindOf_eq {t t' : Term} (h : Pared t t') : t'.kindOf = t.kindOf := by
  rcases h with rfl | rfl
  · exact t.kindOf_strip
  · rw [kindOf_trim, kindOf_strip]

theorem refuse_strip (t : Term) (operation : String) : t.strip.refuse operation = t.refuse operation := by
  cases t <;> rfl

theorem refuse_trim (t : Term) (operation : String) : t.trim.refuse operation = t.refuse operation := by
  unfold trim
  split <;> rfl

end Term

/-- An error in which there is nothing to strip. -/
def Error.Plain (e : Error) : Prop := e.strip = e

theorem Error.plain_ofMissing (t : Term) (trait : String) : (Error.ofMissing t trait).Plain := by
  cases t <;> rfl

theorem Term.plain_refuse (t : Term) (operation : String) : (t.refuse operation).Plain := by
  cases t with
  | kind k =>
    show (if k.can operation then Error.wrongKind else .kindLacks k operation).Plain
    split
    · exact rfl
    · exact rfl
  | _ => exact rfl

namespace Eval

open Term (Pared strip stripAll)

variable {α β γ δ : Type}

theorem agrees_plain {R : α → β → Prop} {e : Error} (h : e.Plain) : Agrees R (.error e) (.error e) := by
  have herror := Agrees.error (R := R) e
  rwa [show e.strip = e from h] at herror

theorem agrees_of_eq {x y : Except Error α} (h : y = x) (hx : ∀ e, x = .error e → e.Plain) :
    Agrees Eq x y := by
  rw [h]
  cases x with
  | ok a => exact .ok rfl
  | error e => exact agrees_plain (hx e rfl)

theorem agrees_truth (t : Term) : Agrees Eq t.truth t.strip.truth := by
  refine agrees_of_eq t.truth_strip fun e he => ?_
  unfold Term.truth at he
  split at he <;> cases he
  exact rfl

theorem agrees_value {k k' : Term} (h : Pared k k') : Agrees Eq k.value k'.value := by
  refine agrees_of_eq h.value_eq fun e he => ?_
  unfold Term.value at he
  split at he <;> cases he
  exact Error.plain_ofMissing _ _

theorem agrees_nameOf (t : Term) : Agrees Eq (nameOf t) (nameOf t) := by
  refine agrees_of_eq rfl fun e he => ?_
  unfold nameOf at he
  split at he <;> cases he
  exact rfl

/-- Members are stripped, and trimmed where they stand to be evaluated. -/
theorem agrees_members (t : Term) : Agrees (List.Forall₂ Pared) t.members t.strip.members := by
  cases t with
  | node k s kids => exact .ok (Term.forall₂_pared_settle k kids)
  | seq items =>
    refine .ok ?_
    rw [Term.stripAll_eq_map]
    exact Term.forall₂_pared_map items
  | text s =>
    refine .ok (List.forall₂_map_left_iff.2 (List.forall₂_map_right_iff.2 ?_))
    exact List.forall₂_same.2 fun c _ => Term.pared_strip _
  | arm b r => exact .ok (.cons (Term.pared_strip _) (.cons (Term.pared_strip r) .nil))
  | _ => exact .error .wrongKind

/-- The parameters of a node are its first child, or the child of a node whose children are not
trimmed. -/
theorem args_cases (k : NodeKind) :
    k.fields.names.findIdx? (· == "args") = none ∨
    k.isFunction = true ∧ k.fields.names.findIdx? (· == "args") = some 0 ∨
    k.isFunction = false ∧ k.hosts = false := by
  cases k with
  | phrase p => cases p <;> decide
  | action a => cases a <;> decide
  | declared => exact .inr (.inr ⟨rfl, rfl⟩)

/-- The parameters of a function are the one child that is never trimmed, which is why `settle` treats
functions on their own. -/
theorem child?_args_strip (t : Term) : t.strip.child? "args" = (t.child? "args").map strip := by
  cases t with
  | node k s kids =>
    simp only [Term.strip, Term.child?]
    rcases args_cases k with hnone | ⟨hfun, hfirst⟩ | ⟨hfun, hhosts⟩
    · rw [hnone]
      rfl
    · rw [hfirst, NodeKind.settle, if_pos hfun]
      cases kids <;> rfl
    · have hkids : k.settle (stripAll kids) = kids.map strip := by
        simp only [NodeKind.settle, hfun, hhosts, Term.stripAll_eq_map, Bool.false_eq_true, if_false]
      rw [hkids]
      cases k.fields.names.findIdx? (· == "args") with
      | none => rfl
      | some i => exact List.getElem?_map
  | _ => rfl

/-- The parameters of what is no signature are its child of that name. -/
theorem parametersOf_eq {f : Term} (h : ∀ s args ret, f ≠ .signature s args ret) :
    parametersOf f = (f.child? "args").elim (.error (.ofMissing f "args")) .ok := by
  unfold parametersOf
  split
  · exact absurd rfl (h _ _ _)
  · exact absurd rfl (h _ _ _)
  · exact absurd rfl (h _ _ _)
  · split
    · rename_i heq
      rw [heq]
      rfl
    · rename_i heq
      rw [heq]
      rfl

/-- A function keeps its parameters when it is stripped.  A signature has parameters too, which are made of
kinds and have nothing to strip. -/
theorem agrees_parametersOf (f : Term) : Agrees Strips (parametersOf f) (parametersOf f.strip) := by
  by_cases hf : ∃ s args ret, f = .signature s args ret
  · obtain ⟨s, args, ret, rfl⟩ := hf
    cases args with
    | none => exact .ok rfl
    | one k => exact .ok rfl
    | many ks =>
      refine .ok ?_
      show Term.seq _ = Term.seq _
      rw [Term.stripAll_eq_map, List.map_map]
      rfl
  · have hne : ∀ s args ret, f ≠ .signature s args ret := fun s args ret h => hf ⟨s, args, ret, h⟩
    have hne' : ∀ s args ret, f.strip ≠ .signature s args ret := by
      intro s args ret h
      cases f with
      | signature => exact hne _ _ _ rfl
      | _ => cases h
    have hmissing : Error.ofMissing f.strip "args" = .ofMissing f "args" := by
      cases f <;> rfl
    rw [parametersOf_eq hne, parametersOf_eq hne', child?_args_strip, hmissing]
    cases f.child? "args" with
    | some t => exact .ok rfl
    | none => exact agrees_plain (Error.plain_ofMissing f "args")

/-- What a call is given.  A leaf stands for itself, and all else for its members. -/
theorem agrees_argumentList (a : Term) :
    Agrees (List.Forall₂ Pared) (argumentList a) (argumentList a.strip) := by
  have hmembers := agrees_members a
  cases a with
  | leaf k s v =>
    cases k with
    | datum d =>
      show Agrees _ (if _ then _ else _) (if _ then _ else _)
      split
      · exact .ok (.cons (Term.pared_strip _) .nil)
      · exact .error .wrongKind
    | word w => exact hmembers
    | declared n b => exact hmembers
  | _ => exact hmembers

theorem plain_of_toNumber {t : Term} {e : Error} (h : t.toNumber = .error e) : e.Plain := by
  unfold Term.toNumber at h
  repeat' split at h
  all_goals cases h
  all_goals exact rfl

/-- A number that was not lowered is read from its text, which stripping leaves alone. -/
theorem agrees_lowered (v : Term) : Agrees Strips (lowered v) (lowered v.strip) := by
  cases v with
  | leaf k s p =>
    cases k with
    | word w =>
      cases w with
      | int =>
        show Agrees Strips (p.toNumber.bind fun n => .ok (.int n)) (p.toNumber.bind fun n => .ok (.int n))
        cases hp : p.toNumber with
        | ok n => exact .ok rfl
        | error e => exact agrees_plain (plain_of_toNumber hp)
      | _ => exact .ok rfl
    | datum d => exact .ok rfl
    | declared n b => exact .ok rfl
  | _ => exact .ok rfl

theorem plain_of_intPower {x y : Int} {e : Error} (h : intPower x y = .error e) : e.Plain := by
  unfold intPower at h
  repeat' split at h
  all_goals cases h
  all_goals exact rfl

/-- Numbers are made of numbers, and these have nothing to strip.  Only a power can fail. -/
theorem agrees_intOperation (a : Action) (x y : Int) {r : Except Error Term}
    (h : intOperation a x y = some r) : Agrees Strips r r := by
  unfold intOperation at h
  split at h
  case h_4 =>
    obtain rfl := Option.some.inj h
    cases hp : intPower x y with
    | ok n => exact .ok rfl
    | error e => exact agrees_plain (plain_of_intPower hp)
  case h_8 => cases h
  all_goals
    obtain rfl := Option.some.inj h
    exact .ok rfl

/-- An array has as many elements as before, so an index that counts from the end means the same. -/
theorem agrees_memberAt (items : List Term) (i : Int) :
    Agrees Strips (memberAt items i) (memberAt (items.map strip) i) := by
  unfold memberAt
  rw [List.length_map]
  generalize (if i < 0 then i + (items.length : Int) else i) = j
  show Agrees Strips (if j < 0 then _ else _) (if j < 0 then _ else _)
  split
  · exact .error .wrongIndex
  · rw [List.getElem?_map]
    cases items[j.toNat]? with
    | some t => exact .ok rfl
    | none => exact .error .wrongIndex

theorem agrees_refuse {R : α → β → Prop} (t : Term) (operation : String) :
    Agrees R (.error (t.refuse operation)) (.error (t.strip.refuse operation)) := by
  rw [t.refuse_strip]
  exact agrees_plain (t.plain_refuse operation)

/-- The index has to be an integer, and a leaf is an integer before and after. -/
theorem agrees_element (items : List Term) (i : Term) :
    Agrees Strips (element items i) (element (items.map strip) i.strip) := by
  have hrefuse : Agrees Strips (.error (i.refuse "to_int")) (.error (i.strip.refuse "to_int")) :=
    agrees_refuse i "to_int"
  cases i with
  | leaf k s v =>
    cases k with
    | datum d =>
      cases d with
      | int =>
        cases v with
        | number n => exact agrees_memberAt items n
        | _ => exact hrefuse
      | _ => exact hrefuse
    | _ => exact hrefuse
  | _ => exact hrefuse

/-- Two leaves: there is nothing to strip. -/
theorem agrees_operate_leaves (a : Action) (k k' : LeafKind) (s s' : Site) (v w : Term) :
    Agrees Strips (operate a (.leaf k s v) (.leaf k' s' w)) (operate a (.leaf k s v) (.leaf k' s' w)) := by
  have hunsupported : Agrees Strips (.error (.unsupported (.leaf k s v) a.name))
      (.error (.unsupported (.leaf k s v) a.name)) := agrees_plain rfl
  unfold operate
  split
  case h_1 x _ y _ _ =>
    show Agrees Strips ((intOperation a x y).getD _) ((intOperation a x y).getD _)
    cases h : intOperation a x y with
    | none => exact hunsupported
    | some r => exact agrees_intOperation a x y h
  case h_2 =>
    dsimp only
    split
    · exact .ok rfl
    · exact hunsupported
  case h_3 heq => cases heq
  case h_4 heq => cases heq
  case h_5 => exact hunsupported

/-- The operators of leaves want a leaf on the right as well. -/
theorem operate_leaf_of_ne {a : Action} {k : LeafKind} {s : Site} {v right : Term}
    (hr : ∀ k s v, right ≠ .leaf k s v) :
    operate a (.leaf k s v) right = .error (.unsupported (.leaf k s v) a.name) := by
  unfold operate
  split
  case h_1 => exact absurd rfl (hr _ _ _)
  case h_2 => exact absurd rfl (hr _ _ _)
  case h_3 heq => cases heq
  case h_4 heq => cases heq
  case h_5 => rfl

/-- An operation looks at the payloads of leaves or at the elements of an array.  Elements are stripped but
not trimmed, so picking one of them commutes with stripping. -/
theorem agrees_operate (a : Action) (left right : Term) :
    Agrees Strips (operate a left right) (operate a left.strip right.strip) := by
  cases left with
  | leaf k s v =>
    by_cases hr : ∃ k s v, right = .leaf k s v
    · obtain ⟨k', s', w, rfl⟩ := hr
      exact agrees_operate_leaves a k k' s s' v w
    · have hne : ∀ k s v, right ≠ .leaf k s v := fun k s v h => hr ⟨k, s, v, h⟩
      have hne' : ∀ k s v, right.strip ≠ .leaf k s v := by
        intro k s v h
        cases right with
        | leaf => exact hne _ _ _ rfl
        | _ => cases h
      show Agrees Strips (operate a (.leaf k s v) right) (operate a (.leaf k s v) right.strip)
      rw [operate_leaf_of_ne hne, operate_leaf_of_ne hne']
      exact agrees_plain rfl
  | node k s items =>
    cases k with
    | action b =>
      cases b with
      | array =>
        show Agrees Strips (if a = .subscript then element items right else _)
          (if a = .subscript then element (stripAll items) right.strip else _)
        rw [Term.stripAll_eq_map]
        split
        · exact agrees_element items right
        · exact .error (.unsupported (.node (.action .array) s items) a.name)
      | _ => exact .error _
    | _ => exact .error _
  | kind k =>
    show Agrees Strips (if k.can a.name then _ else _) (if k.can a.name then _ else _)
    split
    · exact .error .wrongKind
    · exact .error (.unsupported (.kind k) a.name)
  | _ => exact .error _

theorem agrees_binary (a : Action) (left right : Term) :
    Agrees Strips (binary a left right) (binary a left.strip right.strip) := by
  unfold binary
  rw [left.kindOf_strip, right.kindOf_strip]
  split
  · exact .error _
  · exact agrees_operate a left right

/-! ## 4. Evaluation

One level of evaluation is a function of the meaning `r` of the level below.  Each lemma here assumes of `r`
what is to be shown of the level above (`Mirrored`), so none of them mentions a depth; the induction on it is
made once, at the end. -/

/-- Stripping may be put off, and it makes no difference for the value whether a block is trimmed. -/
structure Mirrored (r : Meaning) : Prop where
  eval : ∀ t : Term, Mirrors Strips (r.eval t) (r.eval t.strip)
  text : ∀ t : Term, Mirrors Eq (r.text t) (r.text t.strip)
  trim : ∀ t : Term, r.eval t.trim = r.eval t

variable {r : Meaning}

namespace Mirrored

theorem pared (h : Mirrored r) {t t' : Term} (ha : Pared t t') :
    Mirrors Strips (r.eval t) (r.eval t') := by
  rcases ha with rfl | rfl
  · exact h.eval t
  · rw [h.trim]
    exact h.eval t

theorem trimmed (h : Mirrored r) (t : Term) : Mirrors Strips (r.eval t) (r.eval t.strip.trim) :=
  h.pared (.inr rfl)

/-- The names in a text are looked up one after the other, and a value comes into the text by its own text,
which stripping does not change. -/
theorem fillAll (h : Mirrored r) (ns : List (List Char)) :
    ∀ cs : List Char, Mirrors Eq (Eval.fillAll r ns cs) (Eval.fillAll r ns cs) := by
  induction ns with
  | nil => exact fun cs => mirrors_pure rfl
  | cons n ns ih =>
    intro cs
    refine (mirrors_lookup _).bind ?_
    rintro v _ rfl
    refine (h.text v).bind ?_
    rintro s _ rfl
    exact ih _

theorem interpolate (h : Mirrored r) (s : String) :
    Mirrors Eq (Eval.interpolate r s) (Eval.interpolate r s) := by
  refine (h.fillAll _ _).bind ?_
  rintro cs _ rfl
  exact mirrors_pure rfl

/-- The texts of elements, in order.  An element is evaluated before its text is asked for. -/
theorem elementTexts (h : Mirrored r) (ts : List Term) :
    Mirrors Eq (Eval.elementTexts r ts) (Eval.elementTexts r (ts.map strip)) := by
  induction ts with
  | nil => exact mirrors_pure rfl
  | cons t ts ih =>
    refine (h.eval t).bind ?_
    rintro v _ rfl
    refine (h.text v).bind ?_
    rintro s _ rfl
    refine ih.bind ?_
    rintro ss _ rfl
    exact mirrors_pure rfl

end Mirrored

theorem mirrors_written (t : Term) : Mirrors Eq (written t) (written t) := by
  unfold written
  split
  · exact mirrors_pure rfl
  · exact mirrors_throw rfl

/-- What the names of groups are bound to is text, or nothing. -/
theorem strip_of_mem_groupBindings {f : Match} {b : String × Term} (hb : b ∈ groupBindings f) :
    b.2.strip = b.2 := by
  obtain ⟨⟨n, found⟩, -, rfl⟩ := List.mem_map.1 hb
  cases found <;> rfl

/-- The engine is the same in both worlds. -/
theorem mirrors_findMatch (pattern subject : String) :
    Mirrors Eq (findMatch pattern subject) (findMatch pattern subject) := by
  intro w
  rw [run_findMatch, run_findMatch]
  show Mirror Eq _ (((w.engine.compile pattern).mapError Refusal.error).map (· subject.toList), w.strip)
  cases w.engine.compile pattern with
  | ok m => exact .ok w rfl
  | error e => cases e <;> exact .error _ w

/-- Both sides ask the engine the same question and get the same answer, and what the groups hold are texts.
-/
theorem mirrors_regMatch (pattern : Term) (subject : String) :
    Mirrors Strips (regMatch pattern subject) (regMatch pattern subject) := by
  unfold regMatch
  split
  · refine (mirrors_findMatch _ subject).bind ?_
    rintro found _ rfl
    cases found with
    | none => exact mirrors_pure rfl
    | some f =>
      refine (mirrors_update_plain fun b hb => strip_of_mem_groupBindings hb).bind fun _ _ _ => ?_
      split
      · exact mirrors_pure rfl
      · exact mirrors_pure rfl
  · exact mirrors_throw rfl

/-- The shell is the same in both worlds, before the command and after it. -/
theorem mirrors_runCommand (words : List String) : Mirrors Eq (runCommand words) (runCommand words) := by
  intro w
  rw [run_runCommand, run_runCommand]
  let w' : World := { w with shell := w.shell.after words }
  show Mirror Eq (_, w') ((w.shell.answer [] words).mapError (·.error words), w'.strip)
  cases w.shell.answer [] words with
  | ok s => exact .ok w' rfl
  | error e => cases e <;> exact .error _ w'

theorem mirrors_command (line : String) : Mirrors Strips (command line) (command line) := by
  unfold command
  split
  · exact mirrors_throw rfl
  · refine (mirrors_runCommand _).bind ?_
    rintro s _ rfl
    exact mirrors_pure rfl
  · exact mirrors_throw rfl

theorem mirrors_assign (name v : Term) : Mirrors Eq (assign name v) (assign name v.strip) := by
  refine (agrees_nameOf name).lift.bind ?_
  rintro n _ rfl
  exact mirrors_update [(n, v)]

/-- The target of an assignment is not evaluated, only looked at. -/
theorem mirrors_assignTo (x v : Term) :
    Mirrors Strips
      (match x with
        | .leaf (.datum .var) _ name => do assign name v; pure v
        | _ => do throw (x.refuse "Assign"); pure v)
      (match x.strip.trim with
        | .leaf (.datum .var) _ name => do assign name v.strip; pure v.strip
        | _ => do throw (x.strip.trim.refuse "Assign"); pure v.strip) := by
  by_cases hx : x.kindOf = .leaf (.datum .var)
  · obtain ⟨s, name, rfl⟩ : ∃ s name, x = .leaf (.datum .var) s name := by
      cases x <;> cases hx
      exact ⟨_, _, rfl⟩
    exact (mirrors_assign name v).bind fun _ _ _ => mirrors_pure rfl
  · have hx' : x.strip.trim.kindOf ≠ .leaf (.datum .var) := by rwa [Term.kindOf_trim, Term.kindOf_strip]
    have herror : x.strip.trim.refuse "Assign" = (x.refuse "Assign").strip := by
      rw [Term.refuse_trim, Term.refuse_strip, x.plain_refuse "Assign"]
    split
    · exact absurd rfl hx
    · split
      · rename_i heq
        exact absurd (congrArg Term.kindOf heq) hx'
      · exact Mirrors.bind (R := Eq) (mirrors_throw herror) fun _ _ _ => mirrors_pure rfl

theorem firstArm_of_kindOf_ne {t : Term} (h : t.kindOf ≠ .action .ifThen) (ts : List Term) :
    firstArm r (t :: ts) = throw .notAnArm := by
  unfold firstArm
  split
  · exact absurd rfl h
  · rfl

/-- Whether a node of this kind is evaluated if it has so many children.  Two are always enough: all that
takes two values is tried as an operation on them. -/
def admits (a : Action) (children : Nat) : Bool :=
  match a with
  | .array | .thunk | .func | .block => true
  | .parens | .print | .check | .select | .callBare => children == 1 || children == 2
  | .ifElse => children == 2 || children == 3
  | _ => children == 2

theorem action_of_admits_eq_false {a : Action} {t : Term} {kids : List Term}
    (h : admits a kids.length = false) : Eval.action r a t kids = throw .wrongIndex := by
  fun_cases Eval.action r a t kids with
  | case16 => cases a <;> cases h
  | case17 => rfl
  | _ => cases h

namespace Mirrored

/-- A leaf has nothing to strip. -/
theorem datum (h : Mirrored r) (d : Datum) (s : Site) (v : Term) :
    Mirrors Strips (Eval.datum r d (.leaf (.datum d) s v) v) (Eval.datum r d (.leaf (.datum d) s v) v) := by
  cases d with
  | var => exact mirrors_lookup v
  | ret => exact mirrors_throw rfl
  | shellCmd =>
    refine (h.text (.leaf (.datum .shellCmd) s v)).bind ?_
    rintro line _ rfl
    exact mirrors_command line
  | _ => exact mirrors_pure rfl

/-- Statements are evaluated one after the other and the last value counts.  Nothing is dropped here; that
idle comments can be is shown apart from this (`block_dropIdle`). -/
theorem block (h : Mirrored r) (ts : List Term) : ∀ last : Term,
    Mirrors Strips (Eval.block r last ts) (Eval.block r last.strip (ts.map strip)) := by
  induction ts with
  | nil => exact fun last => mirrors_pure rfl
  | cons t ts ih =>
    intro last
    refine (h.eval t).bind ?_
    rintro v _ rfl
    exact ih v

/-- Arms keep their kind. -/
theorem firstArm (h : Mirrored r) {ts ts' : List Term} (hts : List.Forall₂ Pared ts ts') :
    Mirrors Strips (Eval.firstArm r ts) (Eval.firstArm r ts') := by
  induction hts with
  | nil => exact mirrors_pure rfl
  | @cons t t' ts ts' ha _ ih =>
    by_cases ht : t.kindOf = .action .ifThen
    · obtain ⟨s, kids, rfl⟩ : ∃ s kids, t = .node (.action .ifThen) s kids := by
        cases t <;> cases ht
        exact ⟨_, _, rfl⟩
      have ht' : t' = (Term.node (.action .ifThen) s kids).strip := by
        rcases ha with rfl | rfl <;> rfl
      subst ht'
      refine (h.eval _).bind ?_
      rintro v _ rfl
      cases v with
      | arm b u =>
        cases b with
        | true => exact mirrors_pure rfl
        | false => exact ih
      | _ => exact mirrors_throw rfl
    · have ht' : t'.kindOf ≠ .action .ifThen := ha.kindOf_eq ▸ ht
      rw [firstArm_of_kindOf_ne ht, firstArm_of_kindOf_ne ht']
      exact mirrors_throw rfl

/-- The body of a function is a place that evaluates a block, so it is trimmed.  What is no function is
refused on both sides with the same words. -/
theorem enterBody (h : Mirrored r) (f : Term) :
    Mirrors Strips (Eval.enterBody r f) (Eval.enterBody r f.strip) := by
  have hrefuse : Mirrors Strips (throw (f.refuse "Call")) (throw (f.strip.refuse "Call")) :=
    (agrees_refuse f "Call").lift
  cases f with
  | node k s kids =>
    cases k with
    | action a =>
      cases a with
      | thunk =>
        match kids with
        | [] => exact hrefuse
        | [body] => exact h.trimmed body
        | _ :: _ :: _ => exact hrefuse
      | func =>
        match kids with
        | [] => exact hrefuse
        | [_] => exact hrefuse
        | [_, body] => exact h.trimmed body
        | _ :: _ :: _ :: _ => exact hrefuse
      | _ => exact hrefuse
    | _ => exact hrefuse
  | _ => exact hrefuse

/-- Arguments are evaluated in the frame of the caller, from left to right, and bound under the names of the
parameters.  The names are payloads, so they are the same on both sides, and the values are stripped. -/
theorem bindings (h : Mirrored r) {ks ks' vs vs' : List Term} (hks : List.Forall₂ Pared ks ks')
    (hvs : List.Forall₂ Pared vs vs') :
    Mirrors (fun bs bs' => bs' = bs.map fun b => (b.1, b.2.strip)) (Eval.bindings r ks vs)
      (Eval.bindings r ks' vs') := by
  induction hks generalizing vs vs' with
  | nil => exact mirrors_pure rfl
  | @cons k k' ks ks' hk _ ih =>
    cases hvs with
    | nil => exact mirrors_pure rfl
    | @cons v v' vs vs' hv hvs =>
      refine (h.pared hv).bind ?_
      rintro a _ rfl
      refine (agrees_lowered a).lift.bind ?_
      rintro a _ rfl
      refine (agrees_value hk).lift.bind ?_
      rintro name _ rfl
      refine (agrees_nameOf name).lift.bind ?_
      rintro n _ rfl
      refine (ih hvs).bind ?_
      rintro bs _ rfl
      exact mirrors_pure rfl

/-- A call evaluates the function and the arguments and then pairs parameters with arguments.  There are as
many of each on both sides, so the two fail alike if the numbers differ. -/
theorem operands (h : Mirrored r) (func args : Term) :
    Mirrors (fun p p' => p' = (p.1.strip, p.2.map fun b => (b.1, b.2.strip)))
      (Eval.operands r func args) (Eval.operands r func.strip args.strip) := by
  refine (h.eval func).bind ?_
  rintro f _ rfl
  refine (h.eval args).bind ?_
  rintro a _ rfl
  refine (agrees_parametersOf f).lift.bind ?_
  rintro k _ rfl
  refine (agrees_members k).lift.bind fun ks ks' hks => ?_
  refine (agrees_argumentList a).lift.bind fun vs vs' hvs => ?_
  rw [hks.length_eq, hvs.length_eq]
  have hbind : Mirrors (fun p p' => p' = (p.1.strip, p.2.map fun b => (b.1, b.2.strip)))
      (do return (f, ← Eval.bindings r ks vs)) (do return (f.strip, ← Eval.bindings r ks' vs')) := by
    refine (h.bindings hks hvs).bind ?_
    rintro bs _ rfl
    exact mirrors_pure rfl
  split
  · exact Mirrors.bind (R := Eq) (mirrors_throw rfl) fun _ _ _ => hbind
  · exact hbind

/-- A call evaluates its function, then binds the arguments, and then evaluates the body in a new frame.  All
three parts are mirrored, and the new frame of the stripped world is the stripped form of the new frame. -/
theorem call (h : Mirrored r) (func args : Term) :
    Mirrors Strips (Eval.call r func args) (Eval.call r func.strip args.strip) := by
  rw [call_eq_operands_runBody, call_eq_operands_runBody]
  refine (h.operands func args).bind ?_
  rintro ⟨f, bs⟩ _ rfl
  exact ((mirrors_update bs).bind fun _ _ _ => h.enterBody f).inNewFrame

/-! One lemma for each kind of node.  The children are evaluated in the order in which the node does it, and
what is done with their values after that cannot tell whether these are stripped. -/

theorem print (h : Mirrored r) (t x : Term) :
    Mirrors Strips (Eval.action r .print t [x]) (Eval.action r .print t.strip [x.strip.trim]) := by
  refine (h.trimmed x).bind ?_
  rintro v _ rfl
  refine (h.text v).bind ?_
  rintro s _ rfl
  exact (mirrors_printLine s).bind fun _ _ _ => mirrors_pure rfl

/-- A failed assertion shows its operand, which is trimmed there as it is here. -/
theorem check (h : Mirrored r) (t x : Term) :
    Mirrors Strips (Eval.action r .check t [x]) (Eval.action r .check t.strip [x.strip.trim]) := by
  refine (h.trimmed x).bind ?_
  rintro v _ rfl
  refine (agrees_truth v).lift.bind ?_
  rintro b _ rfl
  split
  · exact mirrors_pure rfl
  · exact mirrors_throw rfl

/-- The left operand decides whether there is a match at all.  Stripping keeps its kind, and if it is an
expression it stays as it is. -/
theorem regMatch (h : Mirrored r) (t x y : Term) :
    Mirrors Strips (Eval.action r .regMatch t [x, y])
      (Eval.action r .regMatch t.strip [x.strip.trim, y.strip.trim]) := by
  refine (h.trimmed x).bind ?_
  rintro left _ rfl
  refine (h.trimmed y).bind ?_
  rintro right _ rfl
  cases left with
  | leaf k s p =>
    cases k with
    | datum d =>
      cases d with
      | regEx =>
        refine (h.text right).bind ?_
        rintro s _ rfl
        exact mirrors_regMatch p s
      | _ => exact mirrors_throw rfl
    | _ => exact mirrors_throw rfl
  | kind k =>
    show Mirrors Strips (if _ then _ else _) (if _ then _ else _)
    split
    · exact mirrors_throw rfl
    · exact mirrors_throw rfl
  | _ => exact mirrors_throw rfl

theorem assign (h : Mirrored r) (t x y : Term) :
    Mirrors Strips (Eval.action r .assign t [x, y])
      (Eval.action r .assign t.strip [x.strip.trim, y.strip.trim]) := by
  refine (h.trimmed y).bind ?_
  rintro v _ rfl
  exact mirrors_assignTo x v

/-- The condition comes first, and the result only if it counts as true. -/
theorem ifThen (h : Mirrored r) (t c x : Term) :
    Mirrors Strips (Eval.action r .ifThen t [c, x])
      (Eval.action r .ifThen t.strip [c.strip.trim, x.strip.trim]) := by
  refine (h.trimmed c).bind ?_
  rintro v _ rfl
  refine (agrees_truth v).lift.bind ?_
  rintro b _ rfl
  split
  · refine (h.trimmed x).bind ?_
    rintro v _ rfl
    exact mirrors_pure rfl
  · exact mirrors_pure rfl

/-- The condition comes first, and then one of two terms, the same one on both sides. -/
theorem ifElse (h : Mirrored r) (t c x y : Term) :
    Mirrors Strips (Eval.action r .ifElse t [c, x, y])
      (Eval.action r .ifElse t.strip [c.strip.trim, x.strip.trim, y.strip.trim]) := by
  refine (h.trimmed c).bind ?_
  rintro v _ rfl
  refine (agrees_truth v).lift.bind ?_
  rintro b _ rfl
  split
  · exact h.trimmed x
  · exact h.trimmed y

theorem callBare (h : Mirrored r) (t x : Term) :
    Mirrors Strips (Eval.action r .callBare t [x]) (Eval.action r .callBare t.strip [x.strip.trim]) := by
  have hbody : Mirrors Strips (r.eval x >>= Eval.enterBody r)
      (r.eval x.strip.trim >>= Eval.enterBody r) := by
    refine (h.trimmed x).bind ?_
    rintro f _ rfl
    exact h.enterBody f
  exact hbody.inNewFrame

/-- The values make a call, and to strip that is to strip them. -/
theorem composeR (h : Mirrored r) (t x y : Term) :
    Mirrors Strips (Eval.action r .composeR t [x, y])
      (Eval.action r .composeR t.strip [x.strip.trim, y.strip.trim]) := by
  refine (h.trimmed y).bind ?_
  rintro right _ rfl
  refine (h.trimmed x).bind ?_
  rintro left _ rfl
  exact h.eval (.action .call [left, right])

theorem binary (h : Mirrored r) (a : Action) {x x' y y' : Term} (hx : Pared x x') (hy : Pared y y') :
    Mirrors Strips (do Offside.binary a (← r.eval x) (← r.eval y))
      (do Offside.binary a (← r.eval x') (← r.eval y')) := by
  refine (h.pared hx).bind ?_
  rintro left _ rfl
  refine (h.pared hy).bind ?_
  rintro right _ rfl
  exact (agrees_binary a left right).lift

/-- One level of evaluation at a node.  Most nodes trim their children, so there is one lemma for each of the
kinds that do something of their own.  Two cases are left over.  In an operation on two values, which of its
children are trimmed depends on the kind, and it does not matter which are.  A node with a wrong number of
children fails on both sides, as stripping keeps that number. -/
theorem action (h : Mirrored r) (a : Action) (t : Term) (kids : List Term) :
    Mirrors Strips (Eval.action r a t kids)
      (Eval.action r a t.strip ((NodeKind.action a).settle (stripAll kids))) := by
  fun_cases Eval.action r a t kids with
  | case1 => exact mirrors_pure rfl
  | case2 => exact mirrors_pure rfl
  | case3 => exact mirrors_pure rfl
  | case4 =>
    rw [Term.stripAll_eq_map]
    exact h.block kids .nothing
  | case5 x => exact h.trimmed x
  | case6 x => exact h.print t x
  | case7 x => exact h.check t x
  | case8 x y => exact h.regMatch t x y
  | case9 x y => exact h.assign t x y
  | case10 c x => exact h.ifThen t c x
  | case11 c x y => exact h.ifElse t c x y
  | case12 x => exact (agrees_members x).lift.bind fun _ _ hts => h.firstArm hts
  | case13 x => exact h.callBare t x
  | case14 f x => exact h.call f x
  | case15 x y => exact h.composeR t x y
  | case16 _ x y =>
    have hkids := Term.forall₂_pared_settle (.action a) [x, y]
    generalize (NodeKind.action a).settle (stripAll [x, y]) = kids at hkids ⊢
    obtain _ | ⟨hx, _ | ⟨hy, _ | _⟩⟩ := hkids
    -- the other side has no earlier case either, by the hypotheses of this one
    rw [Eval.action]
    · exact h.binary a hx hy
    all_goals assumption
  | case17 =>
    have hfew : admits a kids.length = false := by
      have hone := @List.length_eq_one_iff _ kids
      have htwo := @List.length_eq_two _ kids
      have hthree := @List.length_eq_three _ kids
      fun_cases admits a kids.length <;> grind
    have hlength := (Term.forall₂_pared_settle (.action a) kids).length_eq
    rw [action_of_admits_eq_false (hlength ▸ hfew)]
    exact mirrors_throw rfl

/-- **The value of a term.**  Leaves and nodes that can be run are treated above, one kind after the other;
all else is refused on both sides. -/
theorem evalStep (h : Mirrored r) (t : Term) :
    Mirrors Strips (Eval.evalStep r t) (Eval.evalStep r t.strip) := by
  have hrefuse : Mirrors Strips (throw (t.refuse "eval")) (throw (t.strip.refuse "eval")) :=
    (agrees_refuse t "eval").lift
  cases t with
  | leaf k s v =>
    cases k with
    | datum d => exact h.datum d s v
    | _ => exact hrefuse
  | node k s kids =>
    cases k with
    | action a => exact h.action a _ kids
    | _ => exact hrefuse
  | _ => exact hrefuse

theorem literal (h : Mirrored r) {d : Datum} (hd : d = .str ∨ d = .shellCmd) (s : Site) (v : Term) :
    Mirrors Eq (Eval.textStep r (.leaf (.datum d) s v)) (Eval.textStep r (.leaf (.datum d) s v)) := by
  rcases hd with rfl | rfl
  all_goals
    cases v with
    | text s => exact h.interpolate s
    | _ => exact mirrors_throw rfl

/-- **The text of a term.**  Only leaves and arrays have one. -/
theorem textStep (h : Mirrored r) (t : Term) :
    Mirrors Eq (Eval.textStep r t) (Eval.textStep r t.strip) := by
  have hrefuse : Mirrors Eq (throw (t.refuse "to_string") : Eval String)
      (throw (t.strip.refuse "to_string")) := (agrees_refuse t "to_string").lift
  cases t with
  | leaf k s v =>
    cases k with
    | datum d =>
      cases d with
      | int => exact mirrors_written v
      | bool => exact mirrors_written v
      | str => exact h.literal (.inl rfl) s v
      | shellCmd => exact h.literal (.inr rfl) s v
      | _ => exact hrefuse
    | _ => exact hrefuse
  | node k s items =>
    cases k with
    | action a =>
      cases a with
      | array =>
        have htexts : Mirrors Eq (Eval.elementTexts r items) (Eval.elementTexts r (stripAll items)) := by
          rw [Term.stripAll_eq_map]
          exact h.elementTexts items
        refine htexts.bind ?_
        rintro ss _ rfl
        exact mirrors_pure rfl
      | _ => exact hrefuse
    | _ => exact hrefuse
  | _ => exact hrefuse

end Mirrored

/-- The value of a comment that a statement follows is not used.  Where nothing can be evaluated any
more, the statement fails as the comment would. -/
theorem block_dropIdle (n : Nat) (last : Term) (ts : List Term) :
    block (meaning n) last (Term.dropIdle ts) = block (meaning n) last ts := by
  fun_induction Term.dropIdle ts generalizing last with
  | case1 t u ts ht ih =>
    rw [ih]
    cases n with
    | zero => rfl
    | succ n =>
      have hvalue : (meaning (n + 1)).eval t = pure .nothing := by
        unfold Term.isComment at ht
        split at ht
        · rfl
        · cases ht
      show block _ last (u :: ts) = (meaning (n + 1)).eval t >>= fun v => block _ v (u :: ts)
      rw [hvalue, pure_bind]
      rfl
  | case2 t u ts ht ih =>
    show ((meaning n).eval t >>= fun v => block _ v (Term.dropIdle (u :: ts))) =
      (meaning n).eval t >>= fun v => block _ v (u :: ts)
    simp only [ih]
  | case3 ts => rfl

/-- At depth 0 nothing can be evaluated, with comments or without; above that, a block is trimmed by leaving
out what `block_dropIdle` says may be left out. -/
theorem eval_trim (n : Nat) (t : Term) : (meaning n).eval t.trim = (meaning n).eval t := by
  cases n with
  | zero => rfl
  | succ n =>
    unfold Term.trim
    split
    · exact block_dropIdle n .nothing _
    · rfl

/-- **Stripping can be put off.**  The induction is on the depth.  At depth 0 both sides fail with the same
error.  One level up, the lemmas above give the values and the texts from those of the level below, and that
trimming makes no difference is `eval_trim`, which needs no hypothesis about the level. -/
theorem mirrored_meaning (n : Nat) : Mirrored (meaning n) := by
  induction n with
  | zero => exact ⟨fun _ => mirrors_throw rfl, fun _ => mirrors_throw rfl, eval_trim 0⟩
  | succ n ih => exact ⟨ih.evalStep, ih.textStep, eval_trim (n + 1)⟩

end Eval

end Offside
