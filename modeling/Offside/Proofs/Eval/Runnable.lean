import Offside.Proofs.Eval.Isolation
import Offside.Proofs.Scope.Lookup
import Offside.Proofs.Tree.Written
/-!
# What can be evaluated

A term that was read and not lowered cannot be evaluated.  Lowering leaves four kinds of phrases as they
are (`inert`), and the lists of parameters.  The first are evaluated where they are written.  A list of
parameters is not meant to be evaluated, but a call takes its argument apart if that is a function, and an
array that is made of one function is made of its parts (`unpacks`).

So a term is runnable if every phrase in it is one of those that may be left bare, except for the lists of
parameters that stand in functions (`Runnable`).  Lowering makes runnable terms (`runnable_lower`), and
evaluation goes from runnable terms to runnable values (`keeps_meaning`): it comes across a phrase that it
cannot evaluate only if that phrase may be left bare.
-/

namespace Offside

namespace Eval

open Offside.Tree (Visits VisitsAll Written IsName visits_node_iff visitsAll_cons_iff)

/-! ## 1. Bare phrases

Two kinds of phrases are left by lowering: four signs that nothing is made of, and the lists of parameters of
functions.  Which of them can come up when a program is evaluated depends on the program, and it is found by
looking through its tree (`BareIn`). -/

/-- The phrases from signs that lowering leaves as they are. -/
def inert : List Phrase := [.minus, .plus, .composeL, .comma]

def isArray : Term → Bool
  | .node (.action .array) _ _ => true
  | _ => false

/-- Here the parts of a function may come to be evaluated: a call takes apart an argument that is not
written as a list, a composition calls what it comes to, and an array may have been made of a function. -/
def unpacks : Term → Bool
  | .node (.action .call) _ [_, x] => !isArray x
  | .node (.action .composeR) _ _ => true
  | .node (.action .array) _ items => items.any (Term.isPhrase .list)
  | _ => false

/-- The phrases that may be left bare in a program.  The four inert ones may only if they are written in it,
and a list of parameters only if a function can be taken apart somewhere.  So in a program that does neither,
no phrase may be left bare. -/
def BareIn (program : Term) (p : Phrase) : Prop :=
  (p ∈ inert ∧ program.somewhere (Term.isPhrase p) = true) ∨
    (p = .list ∧ program.somewhere unpacks = true)

/-- The term is part of the program. -/
def Inside (program t : Term) : Prop := ∀ q, t.somewhere q = true → program.somewhere q = true

theorem Inside.of_mem {program t : Term} {k : NodeKind} {s : Site} {kids : List Term}
    (h : Inside program (.node k s kids)) (ht : t ∈ kids) : Inside program t :=
  fun q hq => h q (Term.somewhere_of_mem ht hq)

/-! ## 2. Runnable terms

A node is runnable if what is below it is, and a phrase only if it may be left bare.  Of a function the
parameters are not evaluated; they are names, and the body has to be runnable.  Two kinds of nodes take the
value of a term apart, whatever it is: a call whose argument is no array, and a composition.  If that value is
a function, its list of parameters gets out, so these are runnable only if such a list may be left bare. -/

def isToken : Term → Bool
  | .nothing | .flag _ | .number _ | .text _ | .symbol _ => true
  | _ => false

/-- A parameter of a function. -/
def IsParameter (t : Term) : Prop := ∃ s v, t = .leaf (.datum .var) s v

/-- Only phrases that may be left bare come up when the term is evaluated. -/
inductive Runnable (bare : Phrase → Prop) : Term → Prop where
  | datum (d : Datum) (s : Site) (v : Term) : Runnable bare (.leaf (.datum d) s v)
  | token {t : Term} (h : isToken t = true) : Runnable bare t
  | arm (b : Bool) {r : Term} (h : Runnable bare r) : Runnable bare (.arm b r)
  | func (s s' : Site) {names : List Term} {body : Term} (hne : names ≠ [])
      (hnames : ∀ u ∈ names, IsParameter u) (hbody : Runnable bare body) :
      Runnable bare (.node (.action .func) s [.node (.phrase .list) s' names, body])
  | call (s : Site) {f x : Term} (hf : Runnable bare f) (hx : Runnable bare x)
      (h : isArray x = true ∨ bare .list) : Runnable bare (.node (.action .call) s [f, x])
  | action {a : Action} (hfunc : a ≠ .func) (hcall : a ≠ .call) (hcompose : a = .composeR → bare .list)
      (s : Site) {kids : List Term} (hfields : Tree.Admits a.fields kids.length)
      (h : ∀ u ∈ kids, Runnable bare u) : Runnable bare (.node (.action a) s kids)
  | phrase {p : Phrase} (hp : bare p) (s : Site) {kids : List Term} (h : ∀ u ∈ kids, Runnable bare u) :
      Runnable bare (.node (.phrase p) s kids)

variable {bare : Phrase → Prop}

theorem IsParameter.runnable {t : Term} (h : IsParameter t) : Runnable bare t := by
  obtain ⟨s, v, rfl⟩ := h
  exact .datum .var s v

/-- The members of a runnable term are runnable, apart from lists of parameters.  This is the one way in which
a part of a function can get out of it. -/
theorem Runnable.members {t : Term} (h : Runnable bare t) {ms : List Term} (hms : t.members? = some ms) :
    ∀ m ∈ ms, m.isPhrase .list = false ∨ bare .list → Runnable bare m := by
  cases h with
  | datum => cases hms
  | token ht =>
    cases t with
    | text s =>
      obtain rfl := Option.some.inj hms
      intro m hm _
      obtain ⟨c, -, rfl⟩ := List.mem_map.1 hm
      exact .token rfl
    | nothing => cases hms
    | flag => cases hms
    | number => cases hms
    | symbol => cases hms
    | _ => cases ht
  | arm b hr =>
    obtain rfl := Option.some.inj hms
    exact List.forall_mem_cons.2 ⟨fun _ => .token rfl, List.forall_mem_singleton.2 fun _ => hr⟩
  | func s s' _ hnames hbody =>
    obtain rfl := Option.some.inj hms
    refine List.forall_mem_cons.2 ⟨fun hlist => ?_, List.forall_mem_singleton.2 fun _ => hbody⟩
    have hbare := hlist.resolve_left (by simp [Term.isPhrase])
    exact .phrase hbare s' fun u hu => (hnames u hu).runnable
  | call s hf hx _ =>
    obtain rfl := Option.some.inj hms
    exact List.forall_mem_cons.2 ⟨fun _ => hf, List.forall_mem_singleton.2 fun _ => hx⟩
  | action _ _ _ s _ hkids =>
    obtain rfl := Option.some.inj hms
    exact fun m hm _ => hkids m hm
  | phrase _ s hkids =>
    obtain rfl := Option.some.inj hms
    exact fun m hm _ => hkids m hm

/-! ## 3. Lowering

A term is lowered before the node around it is, and an array is then built of the members of what it encloses.
So about each lowered term two things have to be known: that it is runnable itself, and that its members are,
in case it is taken apart by an array (`Fits`). -/

/-- As a part of the program the term is runnable; and so are its members, if these are parts of it and
any list of parameters among them is where functions are unpacked. -/
structure Fits (program u : Term) : Prop where
  whole : Inside program u → Runnable (BareIn program) u
  parts : ∀ ms, u.members? = some ms → (∀ m ∈ ms, Inside program m) →
    (ms.any (Term.isPhrase .list) = true → program.somewhere unpacks = true) →
    ∀ m ∈ ms, Runnable (BareIn program) m

variable {program : Term}

theorem fits_datum (program : Term) (d : Datum) (s : Site) (v : Term) :
    Fits program (.leaf (.datum d) s v) where
  whole _ := .datum d s v
  parts _ hms := by cases hms

/-- A text has members, its characters, and these are texts again. -/
theorem fits_token {t : Term} (ht : isToken t = true) : Fits program t where
  whole _ := .token ht
  parts ms hms _ _ m hm := by
    refine (Runnable.token ht).members hms m hm (.inl ?_)
    cases t with
    | text s =>
      obtain rfl := Option.some.inj hms
      obtain ⟨c, -, rfl⟩ := List.mem_map.1 hm
      rfl
    | nothing => cases hms
    | flag => cases hms
    | number => cases hms
    | symbol => cases hms
    | _ => cases ht

theorem fits_node {k : NodeKind} {s : Site} {kids : List Term} (hkids : ∀ m ∈ kids, Fits program m)
    (hnode : Inside program (.node k s kids) → (∀ m ∈ kids, Runnable (BareIn program) m) →
      Runnable (BareIn program) (.node k s kids)) : Fits program (.node k s kids) where
  whole h := hnode h fun m hm => (hkids m hm).whole (h.of_mem hm)
  parts ms hms hinside _ m hm := by
    obtain rfl := Option.some.inj hms
    exact (hkids m hm).whole (hinside m hm)

/-- What a node that can be run is made of: an array of the members of what it is made from, and all
others of their arguments. -/
theorem build_action_cases {a : Action} {kids : List Term} {u : Term}
    (h : (NodeKind.action a).build kids = .ok u) :
    (∃ x ms, a = .array ∧ kids = [x] ∧ x.members? = some ms ∧ u = .node (.action .array) none ms) ∨
    (a ≠ .array ∧ ∃ kids', u = .node (.action a) none kids' ∧ (∀ m ∈ kids', m ∈ kids) ∧
      Tree.Admits a.fields kids'.length) := by
  unfold NodeKind.build at h
  split at h
  · rename_i heq; cases heq
  · rename_i heq; cases heq
  · rename_i heq
    obtain rfl := NodeKind.action.inj heq
    split at h
    · rename_i x
      obtain ⟨ms, hms, h⟩ := ok_of_bind h
      obtain rfl := Except.ok.inj h
      unfold Term.members at hms
      split at hms
      · rename_i hx
        obtain rfl := Except.ok.inj hms
        exact .inl ⟨x, _, rfl, rfl, hx, rfl⟩
      · cases hms
    · cases h
  · rename_i heq
    obtain rfl := NodeKind.action.inj heq
    split at h
    · obtain rfl := Except.ok.inj h
      refine .inr ⟨by decide, _, rfl, ?_, ?_⟩
      · split <;> simp +contextual [or_comm]
      · split <;> rfl
    · cases h
  · rename_i hcomma hdeclared harray hmatch
    have hne : a ≠ .array := fun ha => harray (congrArg NodeKind.action ha)
    unfold NodeKind.plainBuild at h
    split at h
    · rename_i first rest hfields
      have hfields : a.fields = .named first rest := hfields
      split at h
      · rename_i hlength
        obtain rfl := Except.ok.inj h
        exact .inr ⟨hne, kids, rfl, fun m hm => hm, by rw [hfields]; exact hlength⟩
      · cases h
    · rename_i hfields
      obtain rfl := Except.ok.inj h
      refine .inr ⟨hne, kids, rfl, fun m hm => hm, ?_⟩
      unfold Tree.Admits
      split
      · rename_i first rest heq
        exact (hfields first rest heq).elim
      · trivial

/-- An array takes over the members of what it is made from.  If there is a list of parameters among them, the
array is one of the places that unpack. -/
theorem fits_array {x : Term} {ms : List Term} (hx : Fits program x) (hms : x.members? = some ms) :
    Fits program (.node (.action .array) none ms) := by
  -- the array is where functions are unpacked, if it holds a list of parameters
  have hparts : (∀ m ∈ ms, Inside program m) →
      (ms.any (Term.isPhrase .list) = true → program.somewhere unpacks = true) →
      ∀ m ∈ ms, Runnable (BareIn program) m := hx.parts ms hms
  constructor
  · intro h
    refine .action (by decide) (by decide) (by simp) none trivial ?_
    exact hparts (fun m hm => h.of_mem hm) fun hlist => h unpacks (Term.somewhere_node hlist)
  · intro ms' hms' hinside hlist
    obtain rfl := Option.some.inj hms'
    exact hparts hinside hlist

/-- All other nodes keep their children.  Of a call it is asked that its arguments be an array, or else the
call is itself one of the places that unpack. -/
theorem fits_action {a : Action} (hfunc : a ≠ .func) {kids : List Term} {u : Term}
    (h : (NodeKind.action a).build kids = .ok u) (hkids : ∀ m ∈ kids, Fits program m) :
    Fits program u := by
  rcases build_action_cases h with ⟨x, ms, -, rfl, hms, rfl⟩ | ⟨-, kids', rfl, hmem, hfields⟩
  · exact fits_array (hkids x List.mem_cons_self) hms
  · refine fits_node (fun m hm => hkids m (hmem m hm)) fun hinside hall => ?_
    by_cases hcall : a = .call
    · subst hcall
      obtain ⟨f, x, rfl⟩ := List.length_eq_two.1 hfields
      refine .call none (hall f (by simp)) (hall x (by simp)) ?_
      cases hx : isArray x with
      | true => exact .inl rfl
      | false => exact .inr (.inr ⟨rfl, hinside unpacks (Term.somewhere_node (by simp [unpacks, hx]))⟩)
    · refine .action hfunc hcall ?_ none hfields hall
      rintro rfl
      exact .inr ⟨rfl, hinside unpacks (Term.somewhere_node rfl)⟩

theorem isParameter_lower {names us : List Term} (hnames : ∀ u ∈ names, IsName u)
    (h : VisitsAll Tree.lowerNode names us) : ∀ u ∈ us, IsParameter u := by
  intro u hu
  obtain ⟨t, ht, htu⟩ := h.exists_of_mem hu
  obtain ⟨v, rfl⟩ := hnames t ht
  exact ⟨none, v, (Except.ok.inj htu).symm⟩

theorem actionOf_ne_func {p : Phrase} (hp : p ≠ .lambda) : Tree.actionOf p ≠ some .func := by
  revert hp
  cases p <;> decide

/-- Of the signs four have no meaning of their own. -/
theorem mem_inert {p : Phrase} (hp : p = .block ∨ Tree.isSpoken p = true) (ha : Tree.actionOf p = none) :
    p ∈ inert := by
  revert hp ha
  cases p <;> decide

/-- A word becomes a leaf that can be run. -/
theorem fits_word (program : Term) {w : Word} (hw : (Tree.datumOf w).isSome = true) {s : Site} {v u : Term}
    (hu : Tree.lowerNode (.leaf (.word w) s v) = .ok u) : Fits program u := by
  obtain ⟨d, hd⟩ := Option.isSome_iff_exists.1 hw
  rw [Tree.lowerNode, hd] at hu
  by_cases hint : d = .int
  · subst hint
    obtain ⟨n, -, hu⟩ := ok_of_bind hu
    obtain rfl := Except.ok.inj hu
    exact fits_datum program .int none _
  · have hleaf : (LeafKind.datum d).build [v] = .ok (.leaf (.datum d) none v) := by
      cases d <;> first | rfl | exact absurd rfl hint
    obtain rfl := Except.ok.inj (hleaf.symm.trans hu)
    exact fits_datum program d none v

/-- The parameters of a function are not evaluated with it, only where it is taken apart. -/
theorem fits_func {program : Term} {names : List Term} {body : Term} (hne : names ≠ [])
    (hnames : ∀ u ∈ names, IsParameter u) (hbody : Fits program body) :
    Fits program (.action .func [.phrase .list names, body]) := by
  constructor
  · intro hinside
    exact .func none none hne hnames (hbody.whole (hinside.of_mem (by simp)))
  · intro ms hms hinside hlist
    obtain rfl := Option.some.inj hms
    refine List.forall_mem_cons.2 ⟨?_, List.forall_mem_singleton.2 (hbody.whole (hinside _ (by simp)))⟩
    exact .phrase (.inr ⟨rfl, hlist rfl⟩) none fun u hu => (hnames u hu).runnable

/-- What was written is lowered to what is runnable, by induction on how it was written.  Words become leaves,
a function keeps its parameters apart from its body, and any other phrase becomes an action or is one of the
four that stay. -/
theorem fits_lower (program : Term) {t : Term} (h : Written t) :
    ∀ {u : Term}, Visits Tree.lowerNode t u → Fits program u := by
  induction h with
  | word hw s v => exact fits_word program hw
  | decimal s =>
    intro u hu
    obtain rfl := Except.ok.inj hu
    exact fits_token rfl
  | sign s =>
    intro u hu
    obtain rfl := Except.ok.inj hu
    exact fits_token rfl
  | lambda s hne hnames _ ih =>
    intro u hu
    obtain ⟨kids, hkids, hlower⟩ := visits_node_iff.1 hu
    obtain ⟨list, us, rfl, hlist, hus⟩ := visitsAll_cons_iff.1 hkids
    obtain ⟨body, us, rfl, hbody, hnil⟩ := visitsAll_cons_iff.1 hus
    obtain rfl := Except.ok.inj hnil
    obtain ⟨names, hall, hkeep⟩ := visits_node_iff.1 hlist
    obtain rfl := Except.ok.inj hkeep
    obtain rfl := Except.ok.inj hlower
    have hne : names ≠ [] := by
      rintro rfl
      exact hne (List.length_eq_zero_iff.1 hall.length_eq.symm)
    exact fits_func hne (isParameter_lower hnames hall) (ih hbody)
  | @phrase p hp hlambda s _ _ _ ih =>
    intro u hu
    obtain ⟨kids, hkids, hlower⟩ := visits_node_iff.1 hu
    have hfits : ∀ m ∈ kids, Fits program m := by
      intro m hm
      obtain ⟨t, ht, htm⟩ := hkids.exists_of_mem hm
      exact ih t ht htm
    cases ha : Tree.actionOf p with
    | some a =>
      have hbuild : (NodeKind.action a).build kids = .ok u := by
        simp only [Tree.lowerNode, Tree.actionOfNode, ha] at hlower
        exact hlower
      exact fits_action (fun h => actionOf_ne_func hlambda (ha.trans (congrArg some h))) hbuild hfits
    | none =>
      have hsame : u = .node (.phrase p) s kids := by
        simp only [Tree.lowerNode, Tree.actionOfNode, ha] at hlower
        exact (Except.ok.inj hlower).symm
      rw [hsame]
      refine fits_node hfits fun hinside hall => .phrase (.inl ⟨mem_inert hp ha, ?_⟩) s hall
      exact hinside _ (Term.somewhere_node (by simp [Term.isPhrase]))

/-- **Lowering makes runnable terms.** -/
theorem runnable_lower {source : String} {t u : Term} (h : Program.parse source = .ok t)
    (hu : Tree.lower t = .ok u) : Runnable (BareIn u) u := by
  obtain ⟨hwritten, kids, rfl⟩ := Tree.written_parse h
  exact (fits_lower u hwritten (Tree.visits_of_lower hu)).whole fun _ hq => hq

/-- What stands in a tree that has been lowered: a leaf that can be run, and a node that can be run or is
one of the few that are left as they are. -/
def Lowered : Term → Prop
  | .leaf k _ _ => ∃ d, k = .datum d
  | .node k _ _ => (∃ a, k = .action a) ∨ ∃ p ∈ .list :: inert, k = .phrase p
  | _ => True

theorem BareIn.mem {p : Phrase} (h : BareIn program p) : p ∈ .list :: inert := by
  rcases h with ⟨hp, -⟩ | ⟨rfl, -⟩
  · exact List.mem_cons_of_mem _ hp
  · exact List.mem_cons_self

/-- What can be run has been lowered, at every depth, but for lists of parameters and the phrases that may be
left. -/
theorem Runnable.lowered {t : Term} (h : Runnable (BareIn program) t) : t.Everywhere Lowered := by
  induction h with
  | datum d => exact ⟨d, rfl⟩
  | @token t ht =>
    cases t with
    | leaf => cases ht
    | node => cases ht
    | _ => trivial
  | arm => trivial
  | @func s s' names _ _ hnames _ ihbody =>
    have hlist : (Term.node (.phrase .list) s' names).Everywhere Lowered := by
      refine Term.everywhere_node_iff.2 ⟨.inr ⟨.list, List.mem_cons_self, rfl⟩, fun u hu => ?_⟩
      obtain ⟨s, v, rfl⟩ := hnames u hu
      exact ⟨.var, rfl⟩
    exact Term.everywhere_node_iff.2 ⟨.inl ⟨_, rfl⟩, by simp [hlist, ihbody]⟩
  | call s _ _ _ ihf ihx => exact Term.everywhere_node_iff.2 ⟨.inl ⟨_, rfl⟩, by simp [ihf, ihx]⟩
  | action _ _ _ s _ _ ih => exact Term.everywhere_node_iff.2 ⟨.inl ⟨_, rfl⟩, ih⟩
  | phrase hp s _ ih => exact Term.everywhere_node_iff.2 ⟨.inr ⟨_, hp.mem, rfl⟩, ih⟩

end Eval

end Offside
