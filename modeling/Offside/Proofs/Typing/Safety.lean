import Offside.Eval.Basic
import Offside.Proofs.Scope.Lookup
import Offside.Proofs.Sequencing
/-!
# Terms that are safe to evaluate

An operator that meets operands of different kinds fails.  A term is sound if it never comes to that: it
is evaluated where names are bound to values of known kinds, it gives back a value of a known kind, and
it leaves names bound to values of known kinds (`Sound`).

This is said of evaluation to every depth, and of nothing else, so it is not a matter of how the kinds
were found.  For each form of straight-line code there is a lemma that makes a sound term out of sound
parts; in particular an operator is sound if both operands are, with the same kind.

Printing a text looks up names in it.  It neither binds a name nor applies an operator (`safe_text`).
-/

namespace Offside

namespace Typing

open Eval (meaning)

variable {α β : Type}

/-! ## 1. Kinds of values

An environment gives the kinds of names.  It says of every name whether it is bound, so that a name that is
found has a kind in it. -/

/-- The kinds of values that straight-line code works with. -/
inductive Base where
  | int | str | bool | regEx
  deriving DecidableEq, Repr

namespace Base

def datum : Base → Datum
  | int => .int
  | str => .str
  | bool => .bool
  | regEx => .regEx

def kind (b : Base) : Kind := .datum b.datum

theorem eq_of_kind {b c : Base} (h : b.kind = c.kind) : b = c := by
  cases b <;> cases c <;> first | rfl | cases h

/-- A value of such a kind is a leaf. -/
theorem exists_leaf {b : Base} {v : Term} (h : v.kindOf = b.kind) :
    ∃ s p, v = .leaf (.datum b.datum) s p := by
  cases v with
  | leaf k s p =>
    obtain rfl := Kind.leaf.inj h
    exact ⟨s, p, rfl⟩
  | _ => cases h

end Base

/-- The kinds of the values of names. -/
abbrev Env := String → Option Base

namespace Env

def set (Γ : Env) (x : String) (b : Base) : Env := fun y => if y = x then some b else Γ y

/-- In this world, names have values of these kinds. -/
def Fits (Γ : Env) (w : World) : Prop := ∀ x, (w.scope.get? x).map Term.kindOf = (Γ x).map Base.kind

theorem Fits.set {Γ : Env} {w : World} (h : Γ.Fits w) (x : String) {v : Term} {b : Base}
    (hv : v.kindOf = b.kind) : (Γ.set x b).Fits { w with scope := w.scope.set x v } := by
  intro y
  simp only [Scope.get?_set, Env.set]
  by_cases hy : y = x
  · simp only [hy, if_true, Option.map_some, hv]
  · simp only [hy, if_false, h y]

end Env

/-! ## 2. Computations

`Safe` is a triple that allows all failures but one. -/

/-- The failure of an operator whose operands are of different kinds. -/
def isMixed : Error → Bool
  | .mixedOperands _ _ _ => true
  | _ => false

/-- In a world with `P` the computation does not meet operands of different kinds, and if it gives
something back, then with `Q`. -/
def Safe (P : World → Prop) (x : Eval α) (Q : α → World → Prop) : Prop :=
  ∀ w, P w → match x.run w with
    | (.ok a, w') => Q a w'
    | (.error e, _) => isMixed e = false

variable {P : World → Prop}

theorem safe_pure {a : α} {Q : α → World → Prop} (h : ∀ w, P w → Q a w) :
    Safe P (pure a : Eval α) Q := h

theorem safe_throw {e : Error} {Q : α → World → Prop} (h : isMixed e = false) :
    Safe P (throw e : Eval α) Q := fun _ _ => h

/-- Triples are put together as usual. -/
theorem Safe.bind {x : Eval α} {f : α → Eval β} {Q : α → World → Prop} {R : β → World → Prop}
    (hx : Safe P x Q) (hf : ∀ a, Safe (Q a) (f a) R) : Safe P (x >>= f) R := by
  intro w hw
  have h := hx w hw
  rw [run_bind]
  rcases hr : x.run w with ⟨r, w'⟩
  rw [hr] at h
  cases r with
  | ok a => exact hf a w' h
  | error e => exact h

theorem Safe.imp {x : Eval α} {Q R : α → World → Prop} (hx : Safe P x Q)
    (h : ∀ a w, Q a w → R a w) : Safe P x R := by
  intro w hw
  have h' := hx w hw
  rcases hr : x.run w with ⟨r, w'⟩
  rw [hr] at h'
  cases r with
  | ok a => exact h a w' h'
  | error e => exact h'

/-- The same for what neither reads nor changes the world. -/
def Gives (p : α → Prop) : Except Error α → Prop
  | .ok a => p a
  | .error e => isMixed e = false

theorem safe_lift {x : Except Error α} {p : α → Prop} (h : Gives p x) :
    Safe P (liftM x : Eval α) fun a w => p a ∧ P w := by
  cases x with
  | ok a => exact fun w hw => ⟨h, hw⟩
  | error e => exact fun _ _ => h

/-! ## 3. Names and texts

Writing a value as a text looks up the names in it, and the texts of their values may have names in them
again, to any depth.  Nothing is bound on the way. -/

variable {Γ : Env}

/-- A name that is found has a value of the kind that is known for it. -/
theorem safe_lookup (Γ : Env) (x : String) :
    Safe Γ.Fits (Eval.lookup (.text x)) fun v w => (∃ b, Γ x = some b ∧ v.kindOf = b.kind) ∧ Γ.Fits w := by
  intro w hw
  have hx := hw x
  rw [Eval.lookup, run_get_bind]
  cases hv : w.scope.get? x with
  | none => exact rfl
  | some v =>
    rw [hv] at hx
    obtain ⟨b, hb, hkind⟩ := Option.map_eq_some_iff.1 hx.symm
    exact ⟨⟨b, hb, hkind.symm⟩, hw⟩

theorem safe_written (t : Term) : Safe Γ.Fits (Eval.written t) fun _ => Γ.Fits := by
  rw [Eval.written]
  split
  · exact safe_pure fun _ hw => hw
  · exact safe_throw rfl

/-- Names are looked up one after the other, and their texts are asked for. -/
theorem safe_fillAll {r : Meaning}
    (hr : ∀ {v : Term} {b : Base}, v.kindOf = b.kind → Safe Γ.Fits (r.text v) fun _ => Γ.Fits)
    (ns : List (List Char)) (cs : List Char) :
    Safe Γ.Fits (Eval.fillAll r ns cs) fun _ => Γ.Fits := by
  induction ns generalizing cs with
  | nil => exact safe_pure fun _ hw => hw
  | cons n ns ih =>
    refine (safe_lookup Γ _).bind fun v => ?_
    rintro w ⟨⟨b, -, hv⟩, hw⟩
    exact (hr hv).bind (fun s => ih _) w hw

/-- The text of a value can be asked for anywhere.  By induction on the depth: the names that are looked up
have values of known kinds, and so have the names in the texts of those. -/
theorem safe_text (n : Nat) {v : Term} {b : Base} (hv : v.kindOf = b.kind) :
    Safe Γ.Fits ((meaning n).text v) fun _ => Γ.Fits := by
  induction n generalizing v b with
  | zero => exact safe_throw rfl
  | succ n ih =>
    obtain ⟨s, p, rfl⟩ := Base.exists_leaf hv
    cases b with
    | int => exact safe_written p
    | bool => exact safe_written p
    | regEx => exact safe_throw rfl
    | str =>
      cases p with
      | text s => exact (safe_fillAll ih _ _).bind fun cs => safe_pure fun _ hw => hw
      | _ => exact safe_throw rfl

/-! ## 4. Sound terms

A term is sound if it is so at every depth.  At depth 0 evaluation fails, which is safe, and otherwise it is
one step with sound parts. -/

/-- Where names have values of the kinds `Γ`, the term has a value of kind `b` if any, and leaves names
with values of the kinds `Γ'`. -/
def Sound (Γ : Env) (t : Term) (b : Base) (Γ' : Env) : Prop :=
  ∀ n, Safe Γ.Fits ((meaning n).eval t) fun v w => v.kindOf = b.kind ∧ Γ'.Fits w

variable {Γ₁ Γ₂ : Env} {t left right : Term} {b : Base} {s : Site}

/-- It is enough to look at one level, with all there is below. -/
theorem sound_of_evalStep (h : ∀ n, Safe Γ.Fits (Eval.evalStep (meaning n) t) fun v w =>
    v.kindOf = b.kind ∧ Γ₁.Fits w) : Sound Γ t b Γ₁ := by
  intro n
  cases n with
  | zero => exact safe_throw rfl
  | succ n => exact h n

/-- Literals stand for themselves. -/
def Base.isLiteral : Base → Bool
  | .bool => false
  | _ => true

theorem sound_literal (hb : b.isLiteral = true) (p : Term) :
    Sound Γ (.leaf (.datum b.datum) s p) b Γ := by
  refine sound_of_evalStep fun n => ?_
  cases b with
  | bool => cases hb
  | _ => exact safe_pure fun _ hw => ⟨rfl, hw⟩

theorem sound_var {x : String} (hx : Γ x = some b) :
    Sound Γ (.leaf (.datum .var) s (.text x)) b Γ := by
  refine sound_of_evalStep fun n => (safe_lookup Γ x).imp ?_
  rintro v w ⟨⟨c, hc, hv⟩, hw⟩
  obtain rfl := Option.some.inj (hx.symm.trans hc)
  exact ⟨hv, hw⟩

/-- The value is bound to the name after it has been found. -/
theorem sound_assign {ls : Site} {x : String} (h : Sound Γ right b Γ₁) :
    Sound Γ (.node (.action .assign) s [.leaf (.datum .var) ls (.text x), right]) b (Γ₁.set x b) := by
  refine sound_of_evalStep fun n => (h n).bind fun v => ?_
  rintro w ⟨hv, hw⟩
  exact ⟨hv, hw.set x hv⟩

/-- The kind of the value of an operator, from that of its operands. -/
def resultOf : Action → Base → Option Base
  | .add, b | .sub, b | .mul, b | .pow, b => some b
  | .eq, _ | .less, _ | .more, _ => some .bool
  | _, _ => none

theorem gives_intPower (x y : Int) : Gives (fun _ => True) (intPower x y) := by
  unfold intPower
  -- the bounds are too large to be computed with
  generalize fractionBound = m
  generalize exactBound = k
  repeat' split
  all_goals trivial

/-- An operation on integers gives a value of the kind that is expected of it. -/
theorem gives_intOperation {a : Action} {c : Base} (ha : resultOf a .int = some c) (x y : Int)
    (other : Except Error Term) :
    Gives (fun v => v.kindOf = c.kind) ((intOperation a x y).getD other) := by
  cases a with
  | pow =>
    obtain rfl := Option.some.inj ha
    have h := gives_intPower x y
    simp only [intOperation, Option.getD_some]
    cases hp : intPower x y with
    | ok n => rfl
    | error e => rw [hp] at h; exact h
  | _ => first | cases ha; rfl | cases ha

/-- Operands of one kind give a value of the kind that is expected, if any.  This is where it matters that the
kinds are the same: the failure that is ruled out is that of operands of different kinds. -/
theorem gives_binary {a : Action} {c : Base} (ha : resultOf a b = some c) {l r : Term}
    (hl : l.kindOf = b.kind) (hr : r.kindOf = b.kind) :
    Gives (fun v => v.kindOf = c.kind) (binary a l r) := by
  have hsame : binary a l r = operate a l r := by simp [binary, hl, hr]
  obtain ⟨s, p, rfl⟩ := Base.exists_leaf hl
  obtain ⟨s', q, rfl⟩ := Base.exists_leaf hr
  rw [hsame]
  unfold operate
  split
  · rename_i hint _
    obtain rfl : b = .int := Base.eq_of_kind (congrArg Kind.leaf (Term.leaf.inj hint).1)
    exact gives_intOperation ha _ _ _
  · simp only
    split
    · rename_i heq
      obtain rfl : a = .eq := by simpa using (Bool.and_eq_true_iff.1 heq).1
      obtain rfl := Option.some.inj ha
      rfl
    · rfl
  · rename_i harray
    cases harray
  · rename_i hkind
    cases hkind
  · rfl

/-- **Operators.**  The left operand is evaluated before the right one, which starts where names have the
kinds that the left one has left. -/
theorem sound_binary {a : Action} {c : Base} (ha : resultOf a b = some c) (hl : Sound Γ left b Γ₁)
    (hr : Sound Γ₁ right b Γ₂) : Sound Γ (.node (.action a) s [left, right]) c Γ₂ := by
  have hstep : ∀ n, Eval.evalStep (meaning n) (.node (.action a) s [left, right]) =
      (do binary a (← (meaning n).eval left) (← (meaning n).eval right)) := by
    intro n
    cases a <;> first | rfl | cases ha
  refine sound_of_evalStep fun n => ?_
  rw [hstep]
  refine (hl n).bind fun l => ?_
  rintro w ⟨hl, hw⟩
  refine (hr n).bind (fun r => ?_) w hw
  rintro w ⟨hr, hw⟩
  exact safe_lift (gives_binary ha hl hr) w hw

theorem sound_parens (h : Sound Γ t b Γ₁) : Sound Γ (.node (.action .parens) s [t]) b Γ₁ :=
  sound_of_evalStep fun n => h n

theorem sound_print (h : Sound Γ t b Γ₁) : Sound Γ (.node (.action .print) s [t]) b Γ₁ := by
  refine sound_of_evalStep fun n => (h n).bind fun v => ?_
  rintro w ⟨hv, hw⟩
  refine (safe_text n hv).bind (fun text => ?_) w hw
  exact fun w hw => ⟨hv, hw⟩

theorem gives_truth (v : Term) : Gives (fun _ => True) v.truth := by
  unfold Term.truth
  split <;> trivial

theorem sound_check (h : Sound Γ t b Γ₁) : Sound Γ (.node (.action .check) s [t]) b Γ₁ := by
  refine sound_of_evalStep fun n => (h n).bind fun v => ?_
  refine (safe_lift (gives_truth v)).bind fun yes => ?_
  cases yes with
  | true => exact safe_pure fun w hw => hw.2
  | false => exact safe_throw rfl

/-- The same for terms in a row, of which there is one at least: the last one gives the value. -/
def SoundRow (Γ : Env) (ts : List Term) (b : Base) (Γ' : Env) : Prop :=
  ∀ n last, Safe Γ.Fits (Eval.block (meaning n) last ts) fun v w => v.kindOf = b.kind ∧ Γ'.Fits w

theorem soundRow_one (h : Sound Γ t b Γ₁) : SoundRow Γ [t] b Γ₁ := by
  intro n last
  exact (h n).bind fun v => safe_pure fun _ hw => hw

theorem soundRow_cons {c : Base} {ts : List Term} (h : Sound Γ t b Γ₁) (h' : SoundRow Γ₁ ts c Γ₂) :
    SoundRow Γ (t :: ts) c Γ₂ := by
  intro n last
  refine (h n).bind fun v => ?_
  rintro w ⟨-, hw⟩
  exact h' n v w hw

theorem sound_block {ts : List Term} (h : SoundRow Γ ts b Γ₁) :
    Sound Γ (.node (.action .block) s ts) b Γ₁ :=
  sound_of_evalStep fun n => h n .nothing

end Typing

end Offside
