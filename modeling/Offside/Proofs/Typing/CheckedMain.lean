import Offside.Proofs.Program.Outcome
import Offside.Proofs.StraightLine.Running
import Offside.Proofs.Typing.Sites
/-!
# Checking the types of `main`

If the types of a program are checked, the type of `main` is found before `main` is called, in a frame
where its parameters are bound to the arguments.  These are values: no type has been found for them, so
the parameters get none, and a type with such parameters cannot be made.  This happens whatever the body
of `main` is, as long as a type is found for it, and even if the body does not use the parameters.

For straight-line arithmetic a type is found for the body (`run_infer_body`), so a program whose `main`
consists of that fails when it is checked (`outcome_arithmetic`).  If it is not checked, it gives back an
integer, unless the arithmetic itself fails.

As in the proof that types are right, a type is noted only against a term that no name is bound to, and
terms are told apart by their sites.  Here it also has to be shown that a type is found at all.
-/

namespace Offside

namespace Arithmetic

open Offside.Tree (Visits VisitsAll)
open StraightLine (visits_name)
open Offside.Typing

/-! ## 1. Straight-line arithmetic

The class is given by syntax trees, as they come from a source.  Where the body stands makes no difference: on
lines of its own or after the arrow. -/

/-- The operators, as they are read. -/
def phrases : List Phrase := [.add, .sub, .mul, .pow]

/-- The operators. -/
def actions : List Action := [.add, .sub, .mul, .pow]

/-- An expression as it is read: numerals that are not too long, variables among these names, brackets
and operators. -/
inductive Expr (known : List String) : Term → Prop where
  | literal {s : String} {n : Int} (h : Text.integer? s = some n) : Expr known (.word .int s)
  | var {x : String} (h : x ∈ known) : Expr known (.word .id x)
  | parens {t : Term} (h : Expr known t) : Expr known (.phrase .parens [t])
  | binary {p : Phrase} {l r : Term} (hp : p ∈ phrases) (hl : Expr known l) (hr : Expr known r) :
      Expr known (.phrase p [l, r])

/-- Assignments, and an expression at the end.  A variable is used only after it has been assigned. -/
inductive Lines : List String → List Term → Prop where
  | last {known : List String} {e : Term} (h : Expr known e) : Lines known [e]
  | assign {known : List String} {x : String} {e : Term} {ts : List Term} (h : Expr known e)
      (hrest : Lines (x :: known) ts) : Lines known (.phrase .assign [.word .id x, e] :: ts)

/-- The body of a function: lines, or one expression after the arrow. -/
inductive Body : Term → Prop where
  | block {ts : List Term} (h : Lines [] ts) : Body (.phrase .block ts)
  | inline {e : Term} (h : Expr [] e) : Body e

/-- The syntax tree of `main = (argc, argv) ->` with a body. -/
def mainTree (body : Term) : Term :=
  .phrase .block [.phrase .assign [.word .id "main",
    .phrase .lambda [.phrase .list [.word .id "argc", .word .id "argv"], body]]]

/-! ## 2. Code

The same programs after lowering.  Sites are arbitrary here, so that this describes the code before it is
numbered and after. -/

/-- The same once it has been lowered, with any sites. -/
inductive Code (known : List String) : Term → Prop where
  | literal (s : Site) (n : Int) : Code known (.leaf (.datum .int) s (.number n))
  | var (s : Site) {x : String} (h : x ∈ known) : Code known (.leaf (.datum .var) s (.text x))
  | parens (s : Site) {t : Term} (h : Code known t) : Code known (.node (.action .parens) s [t])
  | binary {a : Action} (ha : a ∈ actions) (s : Site) {l r : Term} (hl : Code known l)
      (hr : Code known r) : Code known (.node (.action a) s [l, r])

inductive CodeLines : List String → List Term → Prop where
  | last {known : List String} {e : Term} (h : Code known e) : CodeLines known [e]
  | assign {known : List String} (s s' : Site) {x : String} {e : Term} {ts : List Term}
      (h : Code known e) (hrest : CodeLines (x :: known) ts) :
      CodeLines known (.node (.action .assign) s [.leaf (.datum .var) s' (.text x), e] :: ts)

inductive CodeBody : Term → Prop where
  | block (s : Site) {ts : List Term} (h : CodeLines [] ts) : CodeBody (.node (.action .block) s ts)
  | inline {e : Term} (h : Code [] e) : CodeBody e

/-- The function `main` with a body of this kind. -/
inductive MainCode : Term → Prop where
  | mk (s s₁ s₂ s₃ : Site) {body : Term} (h : CodeBody body) :
      MainCode (.node (.action .func) s
        [.node (.phrase .list) s₁ [.leaf (.datum .var) s₂ (.text "argc"),
          .leaf (.datum .var) s₃ (.text "argv")], body])

/-- The program that binds `main` to this function. -/
def programCode (s s₁ s₂ : Site) (main : Term) : Term :=
  .node (.action .block) s [.node (.action .assign) s₁ [.leaf (.datum .var) s₂ (.text "main"), main]]

/-! ## 3. Lowering

Lowering gives no sites, so after it nothing has a site (`Blank`), and numbering gives sites to all of it. -/

/-- The term has no sites. -/
def Blank (t : Term) : Prop := ∀ s ∈ t.sites, s = none

def BlankAll (ts : List Term) : Prop := ∀ s ∈ Term.sitesAll ts, s = none

theorem blank_datum (d : Datum) (v : Term) : Blank (.datum d v) := List.forall_mem_singleton.2 rfl

theorem blank_node {k : NodeKind} {kids : List Term} (h : BlankAll kids) : Blank (.node k none kids) :=
  List.forall_mem_cons.2 ⟨rfl, h⟩

theorem blankAll_nil : BlankAll [] := List.forall_mem_nil _

theorem blankAll_cons {t : Term} {ts : List Term} (h : Blank t) (h' : BlankAll ts) :
    BlankAll (t :: ts) :=
  List.forall_mem_append.2 ⟨h, h'⟩

theorem blankAll_two {t u : Term} (h : Blank t) (h' : Blank u) : BlankAll [t, u] :=
  blankAll_cons h (blankAll_cons h' blankAll_nil)

theorem lowerNode_phrase {p : Phrase} (hp : p ∈ phrases) (l r : Term) :
    ∃ a ∈ actions, Tree.lowerNode (.phrase p [l, r]) = .ok (.action a [l, r]) := by
  simp only [phrases, List.mem_cons, List.not_mem_nil, or_false] at hp
  rcases hp with rfl | rfl | rfl | rfl
  · exact ⟨.add, by decide, rfl⟩
  · exact ⟨.sub, by decide, rfl⟩
  · exact ⟨.mul, by decide, rfl⟩
  · exact ⟨.pow, by decide, rfl⟩

/-- An expression can be lowered, to code of the same form and without sites. -/
theorem Expr.exists_code {known : List String} {t : Term} (h : Expr known t) :
    ∃ u, Visits Tree.lowerNode t u ∧ Code known u ∧ Blank u := by
  induction h with
  | @literal s n hn =>
    refine ⟨.int n, Tree.visits_token rfl ?_, .literal none n, blank_datum _ _⟩
    have hnumber : (Term.text s).toNumber = .ok n := by simp only [Term.toNumber, hn]
    show (LeafKind.datum .int).build [.text s] = _
    simp only [LeafKind.build, hnumber, bind, Except.bind]
    rfl
  | @var x hx => exact ⟨_, visits_name x, .var none hx, blank_datum _ _⟩
  | parens _ ih =>
    obtain ⟨u, hu, hcode, hblank⟩ := ih
    exact ⟨.action .parens [u], Tree.visits_node (Tree.visitsAll_one hu) rfl, .parens none hcode,
      blank_node (blankAll_cons hblank blankAll_nil)⟩
  | @binary p l r hp _ _ ihl ihr =>
    obtain ⟨u, hu, hcode, hblank⟩ := ihl
    obtain ⟨v, hv, hcode', hblank'⟩ := ihr
    obtain ⟨a, ha, hnode⟩ := lowerNode_phrase hp u v
    exact ⟨.action a [u, v], Tree.visits_node (Tree.visitsAll_two hu hv) hnode,
      .binary ha none hcode hcode', blank_node (blankAll_two hblank hblank')⟩

/-- The same for lines, in order. -/
theorem Lines.exists_code {known : List String} {ts : List Term} (h : Lines known ts) :
    ∃ us, VisitsAll Tree.lowerNode ts us ∧ CodeLines known us ∧ BlankAll us := by
  induction h with
  | last he =>
    obtain ⟨u, hu, hcode, hblank⟩ := he.exists_code
    exact ⟨[u], Tree.visitsAll_one hu, .last hcode, blankAll_cons hblank blankAll_nil⟩
  | @assign _ x e ts he _ ih =>
    obtain ⟨u, hu, hcode, hblank⟩ := he.exists_code
    obtain ⟨us, hus, hlines, hblanks⟩ := ih
    refine ⟨_, Tree.visitsAll_cons (Tree.visits_node (Tree.visitsAll_two (visits_name x) hu) rfl) hus,
      .assign none none hcode hlines, blankAll_cons ?_ hblanks⟩
    exact blank_node (blankAll_two (blank_datum _ _) hblank)

/-- The same for a body. -/
theorem Body.exists_code {t : Term} (h : Body t) :
    ∃ u, Visits Tree.lowerNode t u ∧ CodeBody u ∧ Blank u := by
  cases h with
  | block h =>
    obtain ⟨us, hus, hlines, hblank⟩ := h.exists_code
    exact ⟨.action .block us, Tree.visits_node hus rfl, .block none hlines, blank_node hblank⟩
  | inline h =>
    obtain ⟨u, hu, hcode, hblank⟩ := h.exists_code
    exact ⟨u, hu, .inline hcode, hblank⟩

/-- **The program is lowered to one that binds `main`.** -/
theorem exists_lower {body : Term} (h : Body body) :
    ∃ main, Tree.lower (mainTree body) = .ok (programCode none none none main) ∧ MainCode main ∧
      Blank main := by
  obtain ⟨u, hu, hcode, hblank⟩ := h.exists_code
  have hparams : Visits Tree.lowerNode (.phrase .list [.word .id "argc", .word .id "argv"])
      (.phrase .list [.datum .var (.text "argc"), .datum .var (.text "argv")]) :=
    Tree.visits_node (Tree.visitsAll_two (visits_name _) (visits_name _)) rfl
  have hmain := Tree.visits_node (f := Tree.lowerNode) (k := .phrase .lambda) (s := none)
    (Tree.visitsAll_two hparams hu) rfl
  have hassign := Tree.visits_node (f := Tree.lowerNode) (k := .phrase .assign) (s := none)
    (Tree.visitsAll_two (visits_name "main") hmain) rfl
  have hblanks : BlankAll [.datum .var (.text "argc"), .datum .var (.text "argv")] :=
    blankAll_two (blank_datum _ _) (blank_datum _ _)
  exact ⟨_, Tree.transform_eq_node rfl (Tree.visitsAll_one hassign), .mk none none none none hcode,
    blank_node (blankAll_two (blank_node hblanks) hblank)⟩

/-! ## 4. Numbering

Code stays code of the same form when its nodes are numbered, because the form does not depend on sites. -/

theorem Code.enumerate {known : List String} {t : Term} (h : Code known t) (n : Nat) :
    Code known (t.enumerate.run n).1 := by
  induction h generalizing n with
  | literal s v => exact .literal _ v
  | var s hx => exact .var _ hx
  | parens s _ ih => exact .parens _ (ih _)
  | binary ha s _ _ ihl ihr => exact .binary ha _ (ihl _) (ihr _)

theorem CodeLines.enumerate {known : List String} {ts : List Term} (h : CodeLines known ts) (n : Nat) :
    CodeLines known ((Term.enumerateAll ts).run n).1 := by
  induction h generalizing n with
  | last he => exact .last (he.enumerate _)
  | assign s s' he _ ih => exact .assign _ _ (he.enumerate _) (ih _)

theorem CodeBody.enumerate {t : Term} (h : CodeBody t) (n : Nat) : CodeBody (t.enumerate.run n).1 := by
  cases h with
  | block s h => exact .block _ (h.enumerate _)
  | inline h => exact .inline (h.enumerate _)

theorem MainCode.enumerate {t : Term} (h : MainCode t) (n : Nat) : MainCode (t.enumerate.run n).1 := by
  cases h with
  | mk s s₁ s₂ s₃ h => exact .mk _ _ _ _ (h.enumerate _)

/-! ## 5. Types of arithmetic

`Typable` says of a term that a type is found for it wherever its variables have been assigned to.  For each
form of code it follows from the same of its parts; each ends with a note of the type that was found
(`found_of_setType`). -/

section Types

variable {d d' : Desk} {known : List String} {t ty : Term}

/-- These names are bound to terms whose types are noted and give back integers. -/
def Ints (known : List String) (d : Desk) : Prop :=
  ∀ x ∈ known, ∃ t, d.scope.get? x = some t ∧ Shows d t .int

/-- A note against a term that no name is bound to changes nothing about names. -/
theorem Ints.withType (h : Ints known d) {n : Nat} (hn : Unbound d (some n)) (ty : Term) :
    Ints known (withType d n ty) := by
  intro x hx
  obtain ⟨t, ht, s, args, hty⟩ := h x hx
  refine ⟨t, ht, s, args, ?_⟩
  rw [typeAt_withType, if_neg (hn x t ht), hty]

theorem Ints.set (h : Ints known d) (x : String) (ht : Shows d t .int) :
    Ints (x :: known) { d with scope := d.scope.set x t } := by
  intro y hy
  simp only [Scope.get?_set]
  by_cases hyx : y = x
  · exact ⟨t, if_pos hyx, ht⟩
  · rw [if_neg hyx]
    exact h y ((List.mem_cons.1 hy).resolve_left hyx)

theorem run_signature (args ret : Term) {as : SigArgs} {k : Kind} (has : sigArgs args = .ok as)
    (hret : kindFor? ret = some k) (d : Desk) :
    (signature args ret).run d =
      (.ok (.signature (some d.next) as k), { d with next := d.next + 1 }) := by
  unfold signature
  rw [has, hret]
  rfl

/-- Nothing stands in the way of noting a type against such a term. -/
def Notable (d : Desk) : Term → Prop
  | .node (.action a) _ _ => d.keeps a = true
  | _ => True

/-- A type is noted where nothing stands in the way, and this is all that happens. -/
theorem run_setType {n : Nat} (hs : t.site = some n) (ht : Notable d t) (ty : Term) :
    (setType t ty).run d = (.ok (), withType d n ty) := by
  have hnote : (note t "type" ty).run d = (.ok (), withType d n ty) := by
    simp only [note, hs]
    rfl
  unfold setType
  split
  · rename_i a _ _
    have hkeeps : d.keeps a = true := ht
    rw [run_get_bind, if_pos hkeeps]
    exact hnote
  · exact hnote

/-- A type that gives back an integer has been found for the term and noted against it.  Nothing else has
happened. -/
structure Found (known : List String) (t : Term) (d : Desk) (ty : Term) (d' : Desk) : Prop where
  run : (infer t).run d = (.ok ty, d')
  ret : ∃ s args, ty = .signature s args (.datum .int)
  shown : typeAt d' t.site = some ty
  ints : Ints known d'
  apart : Apart t.sites d d'
  out : d'.out = d.out
  keeps : d'.keeps = d.keeps

theorem Found.shows (h : Found known t d ty d') : Shows d' t .int := by
  obtain ⟨s, args, rfl⟩ := h.ret
  exact ⟨s, args, h.shown⟩

/-- The last step is to note the type, against a site that no name is bound to. -/
theorem found_of_setType {s : Site} {ss : List Site} {d₁ : Desk} (hsite : t.site = s)
    (hsites : t.sites = s :: ss) (hready : Ready d (s :: ss)) (hd : Apart ss d d₁)
    (hints : Ints known d₁) (hout : d₁.out = d.out) (hkeeps : d₁.keeps = d.keeps)
    (hnotable : Notable d₁ t) (hret : ∃ s args, ty = .signature s args (.datum .int))
    (hrun : (infer t).run d = (do setType t ty; pure ty : Typing Term).run d₁) :
    ∃ d', Found known t d ty d' := by
  have hone := hready.head hd
  obtain ⟨n, rfl⟩ := hone.exists_eq_some
  refine ⟨withType d₁ n ty, ?_, hret, ?_, hints.withType hone.unbound ty, ?_, hout, hkeeps⟩
  · rw [hrun, run_bind_of_ok (run_setType hsite hnotable ty)]
    rfl
  · rw [hsite, typeAt_withType, if_pos rfl]
  · rw [hsites]
    exact (hd.trans (.withType d₁ n ty)).mono (by simp)

/-- A variable that is used takes the type of what its name is bound to, also if there is none. -/
theorem run_inferVar_use {s : Site} {x : String} {ref v : Term} (hnew : typeAt d s = none)
    (href : d.scope.get? x = some ref) (hv : (typeOf ref).run d = (.ok v, d)) :
    (inferVar (.leaf (.datum .var) s (.text x)) (.text x) .nothing).run d =
      (do setType (.leaf (.datum .var) s (.text x)) v; pure v : Typing Term).run d := by
  have hname : (liftM (Eval.nameOf (.text x)) : Typing String).run d = (.ok x, d) := rfl
  have hmissing : (liftM Term.nothing.truth : Typing Bool).run d = (.ok false, d) := rfl
  rw [inferVar, run_bind_of_ok (run_typeOf_var hnew), run_bind_of_ok hmissing, if_neg Bool.false_ne_true,
    run_bind_of_ok hmissing]
  simp only [if_neg Bool.false_ne_true]
  rw [run_bind_of_ok hname, run_get_bind, href]
  exact run_bind_of_ok hv _

/-- A variable that is assigned to takes the type of the term on the right. -/
theorem run_inferVar_assign {s : Site} {x : String} {right v : Term} (hnew : typeAt d s = none)
    (htruth : right.truth = .ok true) (hv : typeAt d right.site = some v) :
    (inferVar (.leaf (.datum .var) s (.text x)) (.text x) right).run d =
      (do setType (.leaf (.datum .var) s (.text x)) v; pure v : Typing Term).run
        { d with scope := d.scope.set x right } := by
  have htype : (typeOf right).run { d with scope := d.scope.set x right } =
      (.ok v, { d with scope := d.scope.set x right }) := run_typeOf hv
  rw [inferVar, run_bind_of_ok (run_typeOf_var hnew)]
  simp only [htruth]
  exact run_bind_of_ok htype _

theorem mem_operators {a : Action} (ha : a ∈ actions) : a ∈ operators := by
  revert a
  decide

theorem resultOf_action {a : Action} (ha : a ∈ actions) {c : Base} (h : resultOf a .int = some c) :
    c = .int := by
  simp only [actions, List.mem_cons, List.not_mem_nil, or_false] at ha
  rcases ha with rfl | rfl | rfl | rfl <;> exact (Option.some.inj h).symm

theorem keepsType_action {a : Action} (ha : a ∈ actions) : a.keepsType = true := by
  revert a
  decide

/-- A type is found for the term, wherever its sites are ready and its variables are bound to integers. -/
def Typable (known : List String) (t : Term) : Prop :=
  ∀ {d : Desk}, Ready d t.sites → Ints known d → d.keeps = Action.keepsType →
    ∃ ty d', Found known t d ty d'

theorem typable_literal (s : Site) (n : Int) : Typable known (.leaf (.datum .int) s (.number n)) := by
  intro d hready hints _
  refine ⟨.signature (some d.next) .none (.datum .int), ?_⟩
  refine found_of_setType rfl rfl hready ((Apart.refl d).withNext (d.next + 1)) hints rfl rfl trivial
    ⟨_, _, rfl⟩ ?_
  have hsignature := run_signature .nothing (.kind (.datum .int)) rfl rfl d
  exact run_bind_of_ok hsignature _

theorem typable_var (s : Site) {x : String} (hx : x ∈ known) :
    Typable known (.leaf (.datum .var) s (.text x)) := by
  intro d hready hints _
  obtain ⟨t, ht, s', args, hty⟩ := hints x hx
  refine ⟨.signature s' args (.datum .int), ?_⟩
  refine found_of_setType rfl rfl hready (Apart.refl d) hints rfl rfl trivial ⟨_, _, rfl⟩ ?_
  exact run_inferVar_use hready.typeAt ht (run_typeOf hty)

/-- Brackets take over the type of what is inside. -/
theorem typable_parens (s : Site) (ih : Typable known t) :
    Typable known (.node (.action .parens) s [t]) := by
  intro d hready hints hkeeps
  rw [sites_single] at hready
  obtain ⟨ty, d₁, h⟩ := ih hready.tail hints hkeeps
  have hnotable : Notable d₁ (.node (.action .parens) s [t]) := by
    rw [Notable, h.keeps, hkeeps]
    rfl
  exact ⟨ty, found_of_setType rfl (sites_single _ _ _) hready h.apart h.ints h.out h.keeps hnotable h.ret
    (run_bind_of_ok h.run _)⟩

/-- An operator finds the types of its operands in order.  Both give back integers, so they agree, and so does
what the operator gives back. -/
theorem typable_binary {a : Action} (ha : a ∈ actions) (s : Site) {l r : Term} (ihl : Typable known l)
    (ihr : Typable known r) : Typable known (.node (.action a) s [l, r]) := by
  intro d hready hints hkeeps
  rw [sites_pair] at hready
  obtain ⟨lty, d₁, hl⟩ := ihl hready.tail.left hints hkeeps
  obtain ⟨rty, d₂, hr⟩ := ihr (hready.tail.right hl.apart) hl.ints (hl.keeps.trans hkeeps)
  obtain ⟨s₁, as₁, rfl⟩ := hl.ret
  obtain ⟨s₂, as₂, rfl⟩ := hr.ret
  have hkeeps₂ : d₂.keeps = Action.keepsType := hr.keeps.trans (hl.keeps.trans hkeeps)
  have hrun : (infer (.node (.action a) s [l, r])).run d =
      (inferBinary a (.node (.action a) s [l, r]) (.signature s₁ as₁ (.datum .int))
        (.signature s₂ as₂ (.datum .int))).run d₂ := by
    have hinfer : infer (.node (.action a) s [l, r]) = (do
        let lty ← infer l
        let rty ← infer r
        inferBinary a (.node (.action a) s [l, r]) lty rty) := by
      simp only [actions, List.mem_cons, List.not_mem_nil, or_false] at ha
      rcases ha with rfl | rfl | rfl | rfl <;> rfl
    rw [hinfer, run_bind_of_ok hl.run, run_bind_of_ok hr.run]
  obtain ⟨c, ret, hc, hret, heq⟩ := inferBinary_eq (mem_operators ha) (.node (.action a) s [l, r])
    s₁ s₂ as₁ as₂ .int .int
  obtain rfl : c = .int := resultOf_action ha hc
  have hnotable : Notable { d₂ with next := d₂.next + 1 } (.node (.action a) s [l, r]) := by
    rw [Notable, hkeeps₂]
    exact keepsType_action ha
  have hsignature := run_signature (.seq [.signature s₁ as₁ (.datum .int), .signature s₂ as₂ (.datum .int)])
    ret rfl hret d₂
  have hd := (hl.apart.trans hr.apart).withNext (d₂.next + 1)
  refine ⟨.signature (some d₂.next) (.many [.datum .int, .datum .int]) (.datum .int), ?_⟩
  refine found_of_setType rfl (sites_pair _ _ _ _) hready hd hr.ints (hr.out.trans hl.out)
    (hr.keeps.trans hl.keeps) hnotable ⟨_, _, rfl⟩ ?_
  refine hrun.trans ?_
  rw [show (.datum .int : Kind) = Base.int.kind from rfl, heq, if_neg (not_not_intro rfl)]
  exact run_bind_of_ok hsignature _

theorem typable_of_code (h : Code known t) : Typable known t := by
  induction h with
  | literal s n => exact typable_literal s n
  | var s hx => exact typable_var s hx
  | parens s _ ih => exact typable_parens s ih
  | binary ha s _ _ ihl ihr => exact typable_binary ha s ihl ihr

theorem Code.truth_eq (h : Code known t) : t.truth = .ok true := by
  cases h <;> rfl

theorem Code.site_mem_sites (h : Code known t) : t.site ∈ t.sites := by
  cases h <;> exact List.mem_cons_self

/-- An assignment binds the name to the term on its right, for which a type was found. -/
theorem found_assign (s s' : Site) (x : String) (h : Code known t)
    (hready : Ready d (Term.node (.action .assign) s [.leaf (.datum .var) s' (.text x), t]).sites)
    (hints : Ints known d) (hkeeps : d.keeps = Action.keepsType) :
    ∃ ty d', Found (x :: known)
      (.node (.action .assign) s [.leaf (.datum .var) s' (.text x), t]) d ty d' := by
  rw [sites_pair] at hready
  have hvar : Ready d (s' :: t.sites) := hready.tail
  obtain ⟨ty, d₁, hright⟩ := typable_of_code h hvar.tail hints hkeeps
  have hone := hvar.head hright.apart
  obtain ⟨m, rfl⟩ := hone.exists_eq_some
  let d₂ : Desk := { d₁ with scope := d₁.scope.set x t }
  have hnotable : Notable (withType d₂ m ty)
      (.node (.action .assign) s [.leaf (.datum .var) (some m) (.text x), t]) := by
    show d₁.keeps .assign = true
    rw [hright.keeps, hkeeps]
    rfl
  -- the variable is another term than the one its name is bound to now
  have hne : some m ∉ [t.site] := by
    intro hm
    rw [List.mem_singleton.1 hm] at hvar
    exact (List.nodup_cons.1 hvar.nodup).1 h.site_mem_sites
  have hunbound := (Apart.set d₁ x t).unbound (some m) hne hone.unbound
  have hsub : t.sites ++ [t.site] ++ [some m] ⊆ some m :: t.sites := by simp [h.site_mem_sites]
  have hd := ((hright.apart.trans (.set d₁ x t)).trans (.withType _ m ty)).mono hsub
  refine ⟨ty, found_of_setType rfl (sites_pair _ _ _ _) hready hd
    ((hright.ints.set x hright.shows).withType hunbound ty) hright.out hright.keeps
    hnotable hright.ret ?_⟩
  have hset := run_setType (d := d₂) (t := .leaf (.datum .var) (some m) (.text x)) rfl trivial ty
  have hassign := run_inferVar_assign (x := x) hone.typeAt h.truth_eq hright.shown
  rw [run_bind_of_ok hset] at hassign
  exact (run_bind_of_ok hright.run _).trans (run_bind_of_ok hassign _)

/-- Types are found for lines in order, and each is noted as that of the block.  The notes on the block do no
harm, because no name is bound to the block. -/
theorem run_inferRow {ts : List Term} (h : CodeLines known ts) {block : Term} {n : Nat}
    (hsite : block.site = some n) (hblock : ∀ d : Desk, d.keeps = Action.keepsType → Notable d block)
    {d : Desk} (hready : Ready d (Term.sitesAll ts)) (hn : some n ∉ Term.sitesAll ts)
    (hunbound : Unbound d (some n)) (hints : Ints known d) (hkeeps : d.keeps = Action.keepsType) :
    ∃ ty d', (inferRow block ts).run d = (.ok (), d') ∧ typeAt d' (some n) = some ty ∧
      (∃ s args, ty = .signature s args (.datum .int)) ∧ d'.out = d.out := by
  induction h generalizing d with
  | @last known e he =>
    obtain ⟨ty, d₁, hfound⟩ := typable_of_code he hready.left hints hkeeps
    have hset := run_setType hsite (hblock d₁ (hfound.keeps.trans hkeeps)) ty
    refine ⟨ty, withType d₁ n ty, ?_, ?_, hfound.ret, hfound.out⟩
    · exact (run_bind_of_ok hfound.run _).trans (run_bind_of_ok hset _)
    · rw [typeAt_withType, if_pos rfl]
  | @assign known s s' x e ts he hrest ih =>
    obtain ⟨hnt, hnts⟩ := not_or.1 (mt List.mem_append.2 hn)
    obtain ⟨ty, d₁, hfound⟩ := found_assign s s' x he hready.left hints hkeeps
    have hkeeps₁ := hfound.keeps.trans hkeeps
    have hset := run_setType hsite (hblock d₁ hkeeps₁) ty
    have hunbound₁ := hfound.apart.unbound _ hnt hunbound
    have hready₂ := (hready.right hfound.apart).of_apart (.withType d₁ n ty) fun s hs hm =>
      hnts (List.mem_singleton.1 hm ▸ hs)
    obtain ⟨ty', d', hrow, hty', hret, hout⟩ :=
      ih hready₂ hnts hunbound₁ (hfound.ints.withType hunbound₁ ty) hkeeps₁
    refine ⟨ty', d', ?_, hty', hret, hout.trans hfound.out⟩
    exact (run_bind_of_ok hfound.run _).trans ((run_bind_of_ok hset _).trans hrow)

/-- **A type is found for the body**, and nothing is printed. -/
theorem run_infer_body {body : Term} (h : CodeBody body) (hready : Ready d body.sites)
    (hkeeps : d.keeps = Action.keepsType) :
    ∃ ty d', (infer body).run d = (.ok ty, d') ∧ d'.out = d.out := by
  have hints : Ints [] d := List.forall_mem_nil _
  cases h with
  | @block s ts h =>
    have hone : Ready d [s] := hready.left
    obtain ⟨n, rfl⟩ := hone.exists_eq_some
    have hblock : ∀ d : Desk, d.keeps = Action.keepsType →
        Notable d (.node (.action .block) (some n) ts) := by
      intro d hd
      rw [Notable, hd]
      rfl
    obtain ⟨ty, d', hrow, hty, hret, hout⟩ := run_inferRow h rfl hblock hready.tail
      (List.nodup_cons.1 hready.nodup).1 hone.unbound hints hkeeps
    exact ⟨ty, d', (run_bind_of_ok hrow _).trans (run_typeOf hty), hout⟩
  | inline h =>
    obtain ⟨ty, d', hfound⟩ := typable_of_code h hready hints hkeeps
    exact ⟨ty, d', hfound.run, hfound.out⟩

/-- A parameter that is bound to a value gets no type. -/
theorem run_infer_parameter {n : Nat} {x : String} {v : Term} (hnew : typeAt d (some n) = none)
    (hv : d.scope.get? x = some v) (htype : (typeOf v).run d = (.ok .nothing, d)) :
    (infer (.leaf (.datum .var) (some n) (.text x))).run d = (.ok .nothing, withType d n .nothing) := by
  have hset := run_setType (d := d) (t := .leaf (.datum .var) (some n) (.text x)) rfl trivial .nothing
  refine (run_inferVar_use hnew hv htype).trans ?_
  rw [run_bind_of_ok hset]
  rfl

/-- **No type is found for `main`.**  Its parameters are bound to values and get no type, which is no failure
yet.  A type is found for the body, and only then, when the parameters are put into the type of the function,
it fails. -/
theorem run_infer_main {s s₁ s₂ s₃ : Site} {body : Term} (h : CodeBody body)
    (hready : Ready d (Term.sitesAll [.node (.phrase .list) s₁ [.leaf (.datum .var) s₂ (.text "argc"),
      .leaf (.datum .var) s₃ (.text "argv")], body]))
    (hkeeps : d.keeps = Action.keepsType) {n : Int} {items : List Term}
    (hargc : d.scope.get? "argc" = some (.int n))
    (hargv : d.scope.get? "argv" = some (.action .array items)) :
    ∃ d', (infer (.node (.action .func) s [.node (.phrase .list) s₁
        [.leaf (.datum .var) s₂ (.text "argc"), .leaf (.datum .var) s₃ (.text "argv")], body])).run d =
      (.error (.argTypes (.seq [.nothing, .nothing])), d') ∧ d'.out = d.out := by
  have hsites : Ready d ((s₁ :: [s₂]) ++ (s₃ :: (body.sites ++ []))) := hready
  have htwo : Ready d [s₂] := (hsites.left).tail
  obtain ⟨m, rfl⟩ := htwo.exists_eq_some
  have hfirst := run_infer_parameter htwo.typeAt hargc rfl
  -- the parameters are told apart by their sites
  have hd₁ : Apart [s₁, some m] d (withType d m .nothing) := (Apart.withType d m .nothing).mono (by simp)
  have hrest := hsites.right hd₁
  have hthree : Ready (withType d m .nothing) [s₃] := hrest.left
  obtain ⟨k, rfl⟩ := hthree.exists_eq_some
  have hargs : (typeOf (.action .array items)).run (withType d m .nothing) =
      (.ok .nothing, withType d m .nothing) := by
    show (if d.keeps .array then pure .nothing else _ : Typing Term).run _ = _
    rw [hkeeps]
    rfl
  have hsecond := run_infer_parameter (d := withType d m .nothing) hthree.typeAt hargv hargs
  have hbody : Ready (withType (withType d m .nothing) k .nothing) body.sites := by
    have h₃ : Ready _ ([some k] ++ (body.sites ++ [])) := hrest
    exact (h₃.right (.withType _ k .nothing)).left
  obtain ⟨ty, d', hinfer, hout⟩ := run_infer_body h hbody hkeeps
  refine ⟨d', ?_, hout⟩
  have hparams : (inferMembers (.node (.phrase .list) s₁ [.leaf (.datum .var) (some m) (.text "argc"),
      .leaf (.datum .var) (some k) (.text "argv")])).run d =
      (.ok [.nothing, .nothing], withType (withType d m .nothing) k .nothing) := by
    refine (run_bind_of_ok hfirst _).trans ?_
    have hrest : (inferAll [.leaf (.datum .var) (some k) (.text "argv")]).run (withType d m .nothing) =
        (.ok [.nothing], withType (withType d m .nothing) k .nothing) := (run_bind_of_ok hsecond _).trans rfl
    exact (run_bind_of_ok hrest _).trans rfl
  exact (run_bind_of_ok hparams _).trans ((run_bind_of_ok hinfer _).trans rfl)

end Types

/-! ## 6. Checking `main`

The statements of the program bind `main` and nothing else, and no types are noted before.  The arguments have
no sites, so the only term with sites that a name is bound to is `main` itself, whose own site is not among
those of its parts. -/

section Check

variable {main : Term}

/-- What the statements of the program leave. -/
def boundMain (main : Term) : Scope Term := ({} : Scope Term).set "main" main

/-- The frame of `main` binds the two parameters; `main` itself is found further out. -/
theorem get?_arguments (s : Scope Term) (args : List String) :
    (s.enter.update (Program.argumentBindings args)).get? "argc" = some (.int args.length) ∧
    (s.enter.update (Program.argumentBindings args)).get? "argv" =
      some (.action .array (args.map .str)) ∧
    (s.enter.update (Program.argumentBindings args)).get? "main" = s.get? "main" := by
  have hscope : s.enter.update (Program.argumentBindings args) =
      (s.enter.set "argc" (.int args.length)).set "argv" (.action .array (args.map .str)) := rfl
  rw [hscope]
  simp [Scope.get?_set, Scope.get?_enter]

/-- Only `main` has a site. -/
theorem unbound_of_ne (args : List String) {d : Desk}
    (hd : d.scope = (boundMain main).enter.update (Program.argumentBindings args)) {s : Site}
    (hmarked : s ≠ none) (hs : s ≠ main.site) : Unbound d s := by
  have hscope : d.scope = ((boundMain main).enter.set "argc" (.int args.length)).set "argv"
      (.action .array (args.map .str)) := hd
  intro x t ht
  rw [hscope, Scope.get?_set, Scope.get?_set, Scope.get?_enter, boundMain, Scope.get?_set] at ht
  split at ht
  · cases ht
    exact hmarked.symm
  · split at ht
    · cases ht
      exact hmarked.symm
    · split at ht
      · cases ht
        exact hs.symm
      · cases ht

/-- The check begins with the type of `main`, in a frame with the arguments. -/
theorem checkMain_eq (args : List String) {d : Desk} (hscope : d.scope = boundMain main) :
    (Program.checkMain args).run d = (do
      let _ ← infer (main.enumerate.run d.next).1
      if (← retOf (← typeOf (main.enumerate.run d.next).1)) ≠ .datum .int then
        let _ ← returnInt (main.enumerate.run d.next).1
      modify fun d => { d with scope := d.scope.leave } : Typing Unit).run { d with
        scope := (boundMain (main.enumerate.run d.next).1).enter.update (Program.argumentBindings args)
        next := (main.enumerate.run d.next).2 } := by
  obtain ⟨⟨k, scope, out⟩, names, notes, next, keeps⟩ := d
  obtain rfl : scope = boundMain main := hscope
  rfl

/-- No type is found for `main` in the frame of its arguments.  Its sites are ready there: no type is noted,
and the only site that a name is bound to is the one of `main`. -/
theorem run_infer_arguments (h : MainCode main) (hmarked : none ∉ main.sites)
    (hnodup : main.sites.Nodup) (args : List String) {d : Desk}
    (hscope : d.scope = (boundMain main).enter.update (Program.argumentBindings args))
    (hnotes : d.notes = []) (hkeeps : d.keeps = Action.keepsType) :
    ∃ d', (infer main).run d = (.error (.argTypes (.seq [.nothing, .nothing])), d') ∧
      d'.out = d.out := by
  obtain ⟨hargc, hargv, -⟩ := get?_arguments (boundMain main) args
  rw [← hscope] at hargc hargv
  cases h with
  | mk s s₁ s₂ s₃ hbody =>
    obtain ⟨hs, hbelow⟩ := List.nodup_cons.1 hnodup
    refine run_infer_main hbody ⟨hbelow, ?_, fun u hu => ⟨?_, ?_⟩⟩ hkeeps hargc hargv
    · exact fun hn => hmarked (List.mem_cons_of_mem _ hn)
    · cases u with
      | none => rfl
      | some k => simp [typeAt, hnotes]
    · refine unbound_of_ne args hscope ?_ ?_
      · rintro rfl
        exact hmarked (List.mem_cons_of_mem _ hu)
      · rintro rfl
        exact hs hu

/-- **The check of `main` fails** and prints nothing. -/
theorem run_checkMain (h : MainCode main) (hmarked : none ∉ main.sites) (hnodup : main.sites.Nodup)
    (args : List String) {d : Desk} (hscope : d.scope = boundMain main) (hnotes : d.notes = [])
    (hkeeps : d.keeps = Action.keepsType) :
    ∃ d', (Program.checkMain args).run d = (.error (.argTypes (.seq [.nothing, .nothing])), d') ∧
      d'.out = d.out := by
  have hsites := Term.sites_enumerate_marked d.next main hmarked
  rw [← hsites] at hmarked hnodup
  rw [checkMain_eq args hscope, run_bind]
  obtain ⟨d', hinfer, hout⟩ := run_infer_arguments (h.enumerate d.next) hmarked hnodup args
    (d := { d with
      scope := (boundMain (main.enumerate.run d.next).1).enter.update (Program.argumentBindings args)
      next := (main.enumerate.run d.next).2 }) rfl hnotes hkeeps
  exact ⟨d', by rw [hinfer], hout⟩

end Check

/-! ## 7. Running `main`

Evaluation of arithmetic does not print and fails in one of three ways only.  How deep it may go is left open:
whatever the depth, it gives an integer or fails. -/

section Values

variable {known : List String} {t : Term} {w : World}

/-- How arithmetic can fail: a power is too large for a fraction, or zero has a negative exponent, or the
terms are nested too deeply. -/
def failures : List Error := [.recursion, .overflow, .zeroDivision]

/-- An integer, or one of these failures. -/
def IsNumeric (r : Except Error Term) : Prop :=
  (∃ s n, r = .ok (.leaf (.datum .int) s (.number n))) ∨ ∃ e ∈ failures, r = .error e

theorem isNumeric_recursion : IsNumeric (.error .recursion) := .inr ⟨_, List.mem_cons_self, rfl⟩

/-- A power is an integer or fails in one of two ways. -/
theorem isNumeric_intPower (x y : Int) : IsNumeric ((intPower x y).map .int) := by
  unfold intPower
  -- the bounds are too large to be computed with
  generalize fractionBound = m
  generalize exactBound = k
  repeat' split
  all_goals first
    | exact .inl ⟨_, _, rfl⟩
    | exact .inr ⟨_, by simp [failures], rfl⟩

theorem isNumeric_binary {a : Action} (ha : a ∈ actions) (s s' : Site) (x y : Int) :
    IsNumeric (binary a (.leaf (.datum .int) s (.number x)) (.leaf (.datum .int) s' (.number y))) := by
  simp only [actions, List.mem_cons, List.not_mem_nil, or_false] at ha
  rcases ha with rfl | rfl | rfl | rfl
  · exact .inl ⟨_, _, rfl⟩
  · exact .inl ⟨_, _, rfl⟩
  · exact .inl ⟨_, _, rfl⟩
  · exact isNumeric_intPower x y

/-- These names are bound to integers. -/
def Numbers (known : List String) (w : World) : Prop :=
  ∀ x ∈ known, ∃ s n, w.scope.get? x = some (.leaf (.datum .int) s (.number n))

/-- An expression changes nothing. -/
theorem Code.run_eval (h : Code known t) (hw : Numbers known w) (m : Nat) :
    ∃ r, ((Eval.meaning m).eval t).run w = (r, w) ∧ IsNumeric r := by
  induction h generalizing m with
  | literal s n =>
    cases m with
    | zero => exact ⟨_, rfl, isNumeric_recursion⟩
    | succ m => exact ⟨_, rfl, .inl ⟨s, n, rfl⟩⟩
  | @var s x hx =>
    cases m with
    | zero => exact ⟨_, rfl, isNumeric_recursion⟩
    | succ m =>
      obtain ⟨s', n, hn⟩ := hw x hx
      exact ⟨_, Eval.run_var hn m s, .inl ⟨s', n, rfl⟩⟩
  | parens s _ ih =>
    cases m with
    | zero => exact ⟨_, rfl, isNumeric_recursion⟩
    | succ m => exact ih m
  | @binary a ha s l r _ _ ihl ihr =>
    cases m with
    | zero => exact ⟨_, rfl, isNumeric_recursion⟩
    | succ m =>
      have hstep : (Eval.meaning (m + 1)).eval (.node (.action a) s [l, r]) = (do
          let left ← (Eval.meaning m).eval l
          let right ← (Eval.meaning m).eval r
          Offside.binary a left right) := by
        simp only [actions, List.mem_cons, List.not_mem_nil, or_false] at ha
        rcases ha with rfl | rfl | rfl | rfl <;> rfl
      obtain ⟨x, hx, hleft⟩ := ihl m
      obtain ⟨y, hy, hright⟩ := ihr m
      rw [hstep, run_bind, hx]
      rcases hleft with ⟨s₁, n₁, rfl⟩ | ⟨e, he, rfl⟩
      · simp only []
        rw [run_bind, hy]
        rcases hright with ⟨s₂, n₂, rfl⟩ | ⟨e, he, rfl⟩
        · exact ⟨_, rfl, isNumeric_binary ha s₁ s₂ n₁ n₂⟩
        · exact ⟨_, rfl, .inr ⟨e, he, rfl⟩⟩
      · exact ⟨_, rfl, .inr ⟨e, he, rfl⟩⟩

/-- Lines give back what the last one does.  By induction on the lines: an assignment binds its name to an
integer, or it fails and so does the block. -/
theorem CodeLines.run_block {ts : List Term} (h : CodeLines known ts) (hw : Numbers known w) (m : Nat)
    (last : Term) :
    ∃ r w', (Eval.block (Eval.meaning m) last ts).run w = (r, w') ∧ w'.out = w.out ∧ IsNumeric r := by
  induction h generalizing w last with
  | @last known e he =>
    obtain ⟨r, hr, hnumeric⟩ := he.run_eval hw m
    refine ⟨r, w, ?_, rfl, hnumeric⟩
    rw [Eval.block, run_bind, hr]
    rcases hnumeric with ⟨s, n, rfl⟩ | ⟨e, -, rfl⟩ <;> rfl
  | @assign known s s' x e ts he _ ih =>
    rw [Eval.block]
    cases m with
    | zero => exact ⟨_, _, rfl, rfl, isNumeric_recursion⟩
    | succ m =>
      obtain ⟨r, hr, hnumeric⟩ := he.run_eval hw m
      rcases hnumeric with ⟨s₁, n, rfl⟩ | ⟨err, herr, rfl⟩
      · have hnumbers : Numbers (x :: known)
            { w with scope := w.scope.set x (.leaf (.datum .int) s₁ (.number n)) } := by
          intro y hy
          simp only [Scope.get?_set]
          by_cases hyx : y = x
          · exact ⟨s₁, n, if_pos hyx⟩
          · rw [if_neg hyx]
            exact hw y ((List.mem_cons.1 hy).resolve_left hyx)
        obtain ⟨r, w', hrest, hout, hnumeric⟩ := ih hnumbers (.leaf (.datum .int) s₁ (.number n))
        refine ⟨r, w', ?_, hout, hnumeric⟩
        rw [run_bind_of_ok (Eval.run_assign hr s s' x)]
        exact hrest
      · refine ⟨_, w, ?_, rfl, .inr ⟨err, herr, rfl⟩⟩
        rw [run_bind, Eval.run_assign_error hr s s' x]

/-- A body prints nothing and gives back an integer, or arithmetic fails. -/
theorem CodeBody.run_eval {body : Term} (h : CodeBody body) (w : World) (m : Nat) :
    ∃ r w', ((Eval.meaning m).eval body).run w = (r, w') ∧ w'.out = w.out ∧ IsNumeric r := by
  have hw : Numbers [] w := List.forall_mem_nil _
  cases h with
  | block s h =>
    cases m with
    | zero => exact ⟨_, _, rfl, rfl, isNumeric_recursion⟩
    | succ m => exact h.run_block hw m .nothing
  | inline h =>
    obtain ⟨r, hr, hnumeric⟩ := h.run_eval hw m
    exact ⟨r, w, hr, rfl, hnumeric⟩

end Values

/-! ## 8. Whole programs

Both halves start from the same statements, which bind `main`.  Then it is checked, or it is called at once.
-/

section Programs

open Program (statements finish playThrough outcome)

variable {main body : Term} {source : String}

/-- The call of `main` gives back what its body does, from a frame in which the arguments are bound. -/
theorem run_callMain (h : MainCode main) (args : List String) {w : World}
    (hw : w.scope = boundMain main) :
    ∃ r w', (Program.callMain args).run w = (r, w') ∧ w'.out = w.out ∧
      ((∃ n, r = .ok n) ∨ ∃ e ∈ failures, r = .error e) := by
  let inner : World := { w with scope := w.scope.enter.update (Program.argumentBindings args) }
  have hmain : inner.scope.get? "main" = some main := by
    refine (get?_arguments w.scope args).2.2.trans ?_
    rw [hw]
    rfl
  obtain ⟨r, w', hr, hout, hnumeric⟩ : ∃ r w',
      (Eval.enterBody (Eval.meaning Eval.depthLimit) main).run inner = (r, w') ∧ w'.out = w.out ∧
        IsNumeric r := by
    cases h with
    | mk s s₁ s₂ s₃ hbody => exact hbody.run_eval inner Eval.depthLimit
  have hcall : ∀ {r'}, (Eval.enterBody (Eval.meaning Eval.depthLimit) main >>= fun v =>
      (pure (Program.exitValue v) : Eval Int)).run inner = (r', w') →
      (Program.callMain args).run w = (r', { w' with scope := w'.scope.leave }) := by
    intro r' h'
    refine StraightLine.run_inNewFrame ?_
    rw [run_modify_bind, run_get_bind, hmain]
    exact h'
  rw [run_bind, hr] at hcall
  rcases hnumeric with ⟨s, n, rfl⟩ | ⟨e, he, rfl⟩
  · exact ⟨_, _, hcall rfl, hout, .inl ⟨_, rfl⟩⟩
  · exact ⟨_, _, hcall rfl, hout, .inr ⟨e, he, rfl⟩⟩

theorem run_programCode (h : MainCode main) (k : Host) (s s₁ s₂ : Site) (next : Nat) :
    (Typing.evaluate (programCode s s₁ s₂ main).eval).run { toHost := k, next := next } =
      (.ok main, { toHost := k, scope := boundMain main, next := next }) := by
  cases h with
  | mk => rfl

/-- The statements of the program bind `main` and do nothing else. -/
theorem exists_statements (hparse : Program.parse source = .ok (mainTree body)) (h : Body body)
    (k : Host) (checkTypes : Bool) :
    ∃ main d, (statements source checkTypes).run (.start k) = (.ok (), d) ∧ d.scope = boundMain main ∧
      d.notes = [] ∧ d.keeps = Action.keepsType ∧ d.out = "" ∧ MainCode main ∧ main.Writable ∧
      (checkTypes = true → none ∉ main.sites ∧ main.sites.Nodup) := by
  obtain ⟨main, hlower, hcode, hblank⟩ := exists_lower h
  have hwritable : main.Writable := by
    obtain ⟨⟨-, hmain, -⟩, -⟩ := Tree.writable_lower (Tree.writable_parse hparse) hlower
    exact hmain
  have hread : (liftM (Program.parse source) : Typing Term).run (.start k) =
      (.ok (mainTree body), .start k) := by
    rw [hparse]
    rfl
  have hcut : (liftM (Tree.lower (mainTree body)) : Typing Term).run (.start k) =
      (.ok (programCode none none none main), .start k) := by
    rw [hlower]
    rfl
  unfold statements
  rw [run_bind_of_ok hread, run_bind_of_ok hcut]
  cases checkTypes with
  | false =>
    refine ⟨main, { toHost := k, scope := boundMain main }, ?_, rfl, rfl, rfl, rfl, hcode, hwritable, nofun⟩
    exact run_bind_of_ok (run_programCode hcode k none none none 0) _
  | true =>
    -- the first three sites go to the block, the assignment and the name
    have hcode' := hcode.enumerate 3
    have hrising := Term.sites_enumerate 3 main hblank
    refine ⟨_, { toHost := k, scope := boundMain (main.enumerate.run 3).1, next := (main.enumerate.run 3).2 },
      ?_, rfl, rfl, rfl, rfl, hcode', Term.writable_enumerate 3 main hwritable,
      fun _ => ⟨hrising.marked, hrising.nodup⟩⟩
    exact run_bind_of_ok (run_programCode hcode' k (some 0) (some 1) (some 2) _) _

theorem shown?_boundMain (h : main.Writable) : (boundMain main).shown? ≠ none := by
  obtain ⟨s, hs⟩ := Scope.shown?_of_writable (f := ⟨[("main", main)]⟩) (List.forall_mem_singleton.2 h)
  exact fun hnone => nomatch hs.symm.trans hnone

/-- **Checking types makes every such program fail.**  A program that consists of a function `main` with
straight-line arithmetic gives back an integer, unless arithmetic fails.  If its types are checked, it
fails before `main` is called, because there is no type for its parameters. -/
theorem outcome_arithmetic (hlength : source.length < Text.writingBound)
    (hparse : Program.parse source = .ok (mainTree body)) (h : Body body) (f : Journal.Filter)
    (k : Host) (args : List String) :
    outcome f k source args true = (.error (.argTypes (.seq [.nothing, .nothing])), "") ∧
    ((∃ n, outcome f k source args false = (.ok n, "")) ∨
      ∃ e ∈ failures, outcome f k source args false = (.error e, "")) := by
  constructor
  · obtain ⟨main, d, hrun, hscope, hnotes, hkeeps, hout, hcode, hwritable, hsites⟩ :=
      exists_statements hparse h k true
    obtain ⟨hmarked, hnodup⟩ := hsites rfl
    obtain ⟨d', hcheck, hd'⟩ := run_checkMain hcode hmarked hnodup args hscope hnotes hkeeps
    have hfinish : (finish args true d.scope).run d =
        (.error (.argTypes (.seq [.nothing, .nothing])), d') := by
      rw [hscope]
      show (Program.checkMain args >>= fun _ => _).run d = _
      rw [run_bind, hcheck]
    rw [Program.outcome_eq_playThrough hlength,
      Program.playThrough_run hrun (hscope ▸ shown?_boundMain hwritable), hfinish]
    exact Prod.ext rfl (hd'.trans hout)
  · obtain ⟨main, d, hrun, hscope, -, -, hout, hcode, hwritable, -⟩ := exists_statements hparse h k false
    obtain ⟨r, w', hcall, hw', hr⟩ := run_callMain hcode args (w := d.toWorld) hscope
    have hfinish : (finish args false d.scope).run d = (r, { d with toWorld := w' }) := by
      rw [hscope]
      show (((Program.callMain args).run d.toWorld).1,
        ({ d with toWorld := ((Program.callMain args).run d.toWorld).2 } : Desk)) = _
      rw [hcall]
    rw [Program.outcome_eq_playThrough hlength,
      Program.playThrough_run hrun (hscope ▸ shown?_boundMain hwritable), hfinish]
    have hprinted : w'.out = "" := hw'.trans hout
    rcases hr with ⟨n, rfl⟩ | ⟨e, he, rfl⟩
    · exact .inl ⟨n, Prod.ext rfl hprinted⟩
    · exact .inr ⟨e, he, Prod.ext rfl hprinted⟩

/-- An assignment, and an expression that uses it twice. -/
def squareBody : Term :=
  .phrase .block [.phrase .assign [.word .id "x", .phrase .pow [.word .int "2", .word .int "3"]],
    .phrase .mul [.word .id "x", .phrase .parens [.phrase .sub [.word .id "x", .word .int "1"]]]]

theorem body_square : Body squareBody := by
  have hx : ∀ {s : String}, s = "x" → Expr ["x"] (.word .id s) := fun h => .var (by simp [h])
  refine .block (.assign (.binary (by decide) (.literal (n := 2) (by decide)) (.literal (n := 3) (by decide)))
    (.last (.binary (by decide) (hx rfl) (.parens (.binary (by decide) (hx rfl) ?_)))))
  exact .literal (n := 1) (by decide)

theorem parse_square :
    Program.parse "main = (argc, argv) ->\n  x = 2 ^ 3\n  x * (x - 1)" = .ok (mainTree squareBody) := by
  have h₂ : Lexer.Cuts "  x = 2 ^ 3".toList [.word .id "x", .symbol "=", .word .int "2", .symbol "^",
      .word .int "3"] [] :=
    .step rfl (.step rfl (.step rfl (.step rfl (.single rfl))))
  have h₃ : Lexer.Cuts "  x * (x - 1)".toList [.word .id "x", .symbol "*", .symbol "(", .word .id "x",
      .symbol "-", .word .int "1", .symbol ")"] [] :=
    .step rfl (.step rfl (.step rfl (.step rfl (.step rfl (.step rfl (.single rfl))))))
  have hlines : Text.lines "main = (argc, argv) ->\n  x = 2 ^ 3\n  x * (x - 1)".toList =
      ["main = (argc, argv) ->".toList, "  x = 2 ^ 3".toList, "  x * (x - 1)".toList] := by decide
  rw [Program.parse, Lexer.tokens, hlines, Lexer.numberedLines_cons 1 (by decide),
    Lexer.line_of_cuts Program.cuts_head (by simp), Lexer.numberedLines_cons 2 (by decide),
    Lexer.line_of_cuts h₂ (by simp), Lexer.numberedLines_cons 3 (by decide),
    Lexer.line_of_cuts h₃ (by simp)]
  rfl

theorem outcome_arithmetic_square :
    Program.parse "main = (argc, argv) ->\n  x = 2 ^ 3\n  x * (x - 1)" = .ok (mainTree squareBody) ∧
    Body squareBody ∧
    outcome {} {} "main = (argc, argv) ->\n  x = 2 ^ 3\n  x * (x - 1)" ["square", "a"] true =
      (.error (.argTypes (.seq [.nothing, .nothing])), "") := by
  refine ⟨parse_square, body_square, ?_⟩
  exact (outcome_arithmetic (Program.length_lt_writingBound (by decide))
    parse_square body_square {} {} ["square", "a"]).1

theorem parse_one : Program.parse "main = (argc, argv) ->\n  1\n" =
    .ok (mainTree (.phrase .block [.word .int "1"])) := by
  have h₂ : Lexer.Cuts "  1".toList [.word .int "1"] [] := .single rfl
  have hlines : Text.lines "main = (argc, argv) ->\n  1\n".toList =
      ["main = (argc, argv) ->".toList, "  1".toList] := by decide
  rw [Program.parse, Lexer.tokens, hlines, Lexer.numberedLines_cons 1 (by decide),
    Lexer.line_of_cuts Program.cuts_head (by simp), Lexer.numberedLines_cons 2 (by decide),
    Lexer.line_of_cuts h₂ (by simp)]
  rfl

/-- The smallest such program, not checked and checked. -/
theorem outcomes_one :
    outcome { otherwise := false } {} "main = (argc, argv) ->\n  1\n" ["prog"] false = (.ok 1, "") ∧
    outcome { otherwise := false } {} "main = (argc, argv) ->\n  1\n" ["prog"] true =
      (.error (.argTypes (.seq [.nothing, .nothing])), "") := by
  have hlength : "main = (argc, argv) ->\n  1\n".length < Text.writingBound :=
    Program.length_lt_writingBound (by decide)
  constructor
  · rw [Program.outcome_eq_playThrough hlength]
    unfold playThrough statements
    rw [parse_one]
    rfl
  · rw [Program.outcome_eq_playThrough hlength]
    unfold playThrough statements
    rw [parse_one]
    rfl

end Programs

end Arithmetic

end Offside
