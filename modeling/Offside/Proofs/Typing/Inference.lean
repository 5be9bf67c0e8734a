import Offside.Proofs.Typing.Safety
import Offside.Typing.Basic
/-!
# Types that are found are right

A type is found without evaluation: it comes from notes on the terms that names are bound to.  For
straight-line code it is right all the same (`infer_sound`).  What is found for a term says of which kind its
value is, even if names are bound again to terms of other types on the way.

While types are found, three things are kept up.

* The kinds that the notes give for the names of the desk are those of the values that the names have when
  the code is evaluated up to the same place (`Reads`, on the side of the desk).
* A note is made only against a term that no name is bound to.  So the notes that names depend on stay as
  they are; this is where terms have to be told apart by their sites (`Ready`).
* Nothing is changed about the sites of other terms (`Apart`), so these can still be typed.

For each form of code there is a lemma that this holds of a term if it holds of the parts (`Infers`).
-/

namespace Offside

namespace Term

mutual

/-- The sites of the leaves and nodes of a term. -/
def sites : Term → List Site
  | node _ s kids => s :: sitesAll kids
  | leaf _ s _ => [s]
  | _ => []

def sitesAll : List Term → List Site
  | [] => []
  | t :: ts => t.sites ++ sitesAll ts

end

end Term

namespace Typing

/-! ## 1. Notes on types

A type is noted against the site of a term.  Each step of inference is described by what it does to the notes:
it reads them, or it makes one, or it binds a name. -/

/-- The type that is noted against a site. -/
def typeAt (d : Desk) (s : Site) : Option Term := s.bind fun n => d.notes.lookup (n, "type")

/-- The desk with a type noted against a site. -/
def withType (d : Desk) (n : Nat) (ty : Term) : Desk :=
  { d with notes := ((n, "type"), ty) :: d.notes.filter (·.1 != (n, "type")) }

theorem lookup_filter_ne {κ ν : Type} [BEq κ] [LawfulBEq κ] {j k : κ} (h : j ≠ k) (es : List (κ × ν)) :
    (es.filter (·.1 != k)).lookup j = es.lookup j := by
  induction es with
  | nil => rfl
  | cons e es ih =>
    obtain ⟨i, v⟩ := e
    by_cases hi : i = k
    · subst hi
      have hji : (j == i) = false := beq_false_of_ne h
      simp [List.lookup_cons, hji, ih]
    · simp [hi, List.lookup_cons, ih]

/-- A note changes the type at its own site only. -/
theorem typeAt_withType (d : Desk) (n : Nat) (ty : Term) (s : Site) :
    typeAt (withType d n ty) s = if s = some n then some ty else typeAt d s := by
  cases s with
  | none => rfl
  | some m =>
    by_cases hm : m = n
    · subst hm
      simp [typeAt, withType]
    · have hkey : ((m, "type") == (n, "type")) = false := by simpa using hm
      have hne : (m, "type") ≠ (n, "type") := by simpa using hm
      simp [typeAt, withType, List.lookup_cons, hkey, lookup_filter_ne hne, hm]

variable {d d' : Desk} {t ty : Term}

theorem run_noted (t : Term) (d : Desk) :
    (noted? t "type").run d = (.ok (typeAt d t.site), d) := by
  unfold noted?
  cases t.site <;> rfl

theorem run_typeOf {v : Term} (h : typeAt d t.site = some v) : (typeOf t).run d = (.ok v, d) := by
  rw [typeOf, run_bind, run_noted, h]
  rfl

/-- The type of a variable is not known before it has been found. -/
theorem run_typeOf_var {s : Site} {name : Term} (h : typeAt d s = none) :
    (typeOf (.leaf (.datum .var) s name)).run d = (.ok .nothing, d) := by
  rw [typeOf, run_bind, run_noted, Term.site, h]
  rfl

/-- If a type could be noted, this is the note. -/
theorem ok_setType {n : Nat} {u : Unit} (hs : t.site = some n)
    (h : (setType t ty).run d = (.ok u, d')) : d' = withType d n ty := by
  have hnote : (note t "type" ty).run d = (.ok (), withType d n ty) := by
    simp only [note, hs]
    rfl
  unfold setType at h
  split at h
  · rw [run_get_bind] at h
    split at h
    · exact (Prod.mk.inj (hnote.symm.trans h)).2.symm
    · cases h
  · exact (Prod.mk.inj (hnote.symm.trans h)).2.symm

/-- If a signature could be made, it gives back the kind that was asked for, and only a number has been used
up. -/
theorem ok_signature {args ret : Term} (h : (signature args ret).run d = (.ok ty, d')) :
    ∃ s as k next, ty = .signature s as k ∧ kindFor? ret = some k ∧ d' = { d with next := next } := by
  obtain ⟨as, d₁, has, hsig⟩ := ok_of_run_bind h
  obtain ⟨-, rfl⟩ := ok_of_run_lift has
  split at hsig
  · rename_i k hk
    obtain ⟨hty, rfl⟩ := Prod.mk.inj hsig
    obtain rfl := Except.ok.inj hty
    exact ⟨_, _, k, _, rfl, hk, rfl⟩
  · cases hsig

/-- A variable takes its type from another term. -/
theorem ok_typeFrom {n : Nat} {ref v : Term} (hs : t.site = some n) (hv : typeAt d ref.site = some v)
    (h : (do let ty ← typeOf ref; setType t ty; pure ty : Typing Term).run d = (.ok ty, d')) :
    ty = v ∧ d' = withType d n v := by
  rw [run_bind_of_ok (run_typeOf hv)] at h
  obtain ⟨u, d₁, hset, hpure⟩ := ok_of_run_bind h
  obtain rfl := ok_setType hs hset
  obtain ⟨hty, hd⟩ := Prod.mk.inj hpure
  exact ⟨(Except.ok.inj hty).symm, hd.symm⟩

theorem exists_text {name : Term} {x : String} (h : Eval.nameOf name = .ok x) : name = .text x := by
  cases name with
  | text y =>
    obtain rfl := Except.ok.inj h
    rfl
  | _ => cases h

/-- A variable that is used has the type of what its name is bound to. -/
theorem ok_inferVar_use {n : Nat} {name : Term} (hnew : typeAt d (some n) = none)
    (h : (inferVar (.leaf (.datum .var) (some n) name) name .nothing).run d = (.ok ty, d')) :
    ∃ x ref, name = .text x ∧ d.scope.get? x = some ref ∧
      ∀ v, typeAt d ref.site = some v → ty = v ∧ d' = withType d n v := by
  rw [inferVar, run_bind_of_ok (run_typeOf_var hnew)] at h
  obtain ⟨x, d₁, hname, hrest⟩ := ok_of_run_bind (x := liftM (Eval.nameOf name)) h
  obtain ⟨hx, rfl⟩ := ok_of_run_lift hname
  rw [run_get_bind] at hrest
  split at hrest
  · rename_i ref href
    exact ⟨x, ref, exists_text hx, href, fun v hv => ok_typeFrom rfl hv hrest⟩
  · cases hrest

theorem ok_assign {name v : Term} {u : Unit}
    (h : (evaluate (Eval.assign name v)).run d = (.ok u, d')) :
    ∃ x, name = .text x ∧ d' = { d with scope := d.scope.set x v } := by
  cases name with
  | text x => exact ⟨x, rfl, (Prod.mk.inj h).2.symm⟩
  | _ => cases h

/-- A variable that is assigned to has the type of the term on the right, to which its name is bound. -/
theorem ok_inferVar_assign {n : Nat} {name right : Term} (hnew : typeAt d (some n) = none)
    (htruth : right.truth = .ok true)
    (h : (inferVar (.leaf (.datum .var) (some n) name) name right).run d = (.ok ty, d')) :
    ∃ x, name = .text x ∧ ∀ v, typeAt d right.site = some v →
      ty = v ∧ d' = withType { d with scope := d.scope.set x right } n v := by
  rw [inferVar, run_bind_of_ok (run_typeOf_var hnew)] at h
  simp only [htruth] at h
  obtain ⟨u, d₁, hassign, hrest⟩ := ok_of_run_bind (x := evaluate (Eval.assign name right)) h
  obtain ⟨x, hx, rfl⟩ := ok_assign hassign
  exact ⟨x, hx, fun v hv => ok_typeFrom rfl hv hrest⟩

/-! ## 2. What a desk knows about names

Names are bound to terms here, and not to values: the term on the right of the last assignment.  Its type is
what the notes say. -/

/-- The type noted for a term gives back this kind. -/
def Shows (d : Desk) (t : Term) (b : Base) : Prop :=
  ∃ s args, typeAt d t.site = some (.signature s args b.kind)

/-- Names are bound to terms whose types are noted, and give back these kinds. -/
def Reads (Γ : Env) (d : Desk) : Prop :=
  ∀ x, (d.scope.get? x = none ∧ Γ x = none) ∨
    ∃ t b, d.scope.get? x = some t ∧ Γ x = some b ∧ Shows d t b

/-- No name is bound to a term with this site. -/
def Unbound (d : Desk) (s : Site) : Prop := ∀ x t, d.scope.get? x = some t → t.site ≠ s

variable {Γ : Env}

/-- A note against a term that no name is bound to changes nothing about names. -/
theorem Reads.withType (h : Reads Γ d) {n : Nat} (hn : Unbound d (some n)) (ty : Term) :
    Reads Γ (withType d n ty) := by
  intro x
  rcases h x with hx | ⟨t, b, ht, hb, s, args, hty⟩
  · exact .inl hx
  · refine .inr ⟨t, b, ht, hb, s, args, ?_⟩
    rw [typeAt_withType, if_neg (hn x t ht), hty]

/-- To bind a name to a term changes the kind of this name, to the one that is noted for the term. -/
theorem Reads.set (h : Reads Γ d) (x : String) {t : Term} {b : Base} (ht : Shows d t b) :
    Reads (Γ.set x b) { d with scope := d.scope.set x t } := by
  intro y
  simp only [Scope.get?_set, Env.set]
  by_cases hy : y = x
  · simp only [hy, if_true]
    exact .inr ⟨t, b, rfl, rfl, ht⟩
  · simp only [hy, if_false]
    exact h y

/-- From one desk to the other, nothing has changed about other sites than these. -/
structure Apart (ss : List Site) (d d' : Desk) : Prop where
  typeAt : ∀ s, s ∉ ss → typeAt d' s = typeAt d s
  unbound : ∀ s, s ∉ ss → Unbound d s → Unbound d' s

namespace Apart

variable {ss us : List Site} {d'' : Desk}

theorem refl (d : Desk) : Apart [] d d := ⟨fun _ _ => rfl, fun _ _ h => h⟩

theorem trans (h : Apart ss d d') (h' : Apart us d' d'') : Apart (ss ++ us) d d'' := by
  constructor
  · intro s hs
    rw [List.mem_append, not_or] at hs
    rw [h'.typeAt s hs.2, h.typeAt s hs.1]
  · intro s hs hd
    rw [List.mem_append, not_or] at hs
    exact h'.unbound s hs.2 (h.unbound s hs.1 hd)

theorem mono (h : Apart ss d d') (hsub : ss ⊆ us) : Apart us d d' :=
  ⟨fun s hs => h.typeAt s fun hm => hs (hsub hm), fun s hs => h.unbound s fun hm => hs (hsub hm)⟩

theorem withNext (h : Apart ss d d') (next : Nat) : Apart ss d { d' with next := next } :=
  ⟨h.typeAt, h.unbound⟩

theorem withType (d : Desk) (n : Nat) (ty : Term) : Apart [some n] d (Typing.withType d n ty) := by
  constructor
  · intro s hs
    rw [typeAt_withType, if_neg (fun h => hs (List.mem_singleton.2 h))]
  · exact fun _ _ h => h

/-- To bind a name binds it to one more site, that of the term. -/
theorem set (d : Desk) (x : String) (t : Term) :
    Apart [t.site] d { d with scope := d.scope.set x t } := by
  constructor
  · exact fun _ _ => rfl
  · intro s hs hd y u hu
    rw [Scope.get?_set] at hu
    split at hu
    · obtain rfl := Option.some.inj hu
      exact fun h => hs (List.mem_singleton.2 h.symm)
    · exact hd y u hu

end Apart

/-- Terms with these sites can be typed: the sites are there, they differ, nothing is known about them. -/
structure Ready (d : Desk) (ss : List Site) : Prop where
  nodup : ss.Nodup
  marked : none ∉ ss
  fresh : ∀ s ∈ ss, typeAt d s = none ∧ Unbound d s

namespace Ready

variable {ss us : List Site}

theorem left (h : Ready d (ss ++ us)) : Ready d ss :=
  ⟨(List.nodup_append.1 h.nodup).1, fun hn => h.marked (List.mem_append_left _ hn),
    fun s hs => h.fresh s (List.mem_append_left _ hs)⟩

/-- What has been done to other terms makes no difference.  This is what allows to type the parts of a term in
order. -/
theorem of_apart (h : Ready d us) (hd : Apart ss d d') (hus : ∀ s ∈ us, s ∉ ss) : Ready d' us := by
  refine ⟨h.nodup, h.marked, fun s hs => ?_⟩
  obtain ⟨hty, hunbound⟩ := h.fresh s hs
  exact ⟨(hd.typeAt s (hus s hs)).trans hty, hd.unbound s (hus s hs) hunbound⟩

theorem right (h : Ready d (ss ++ us)) (hd : Apart ss d d') : Ready d' us := by
  obtain ⟨-, hus, hdisjoint⟩ := List.nodup_append.1 h.nodup
  refine of_apart ⟨hus, ?_, ?_⟩ hd fun s hs hm => hdisjoint s hm s hs rfl
  · exact fun hn => h.marked (List.mem_append_right _ hn)
  · exact fun s hs => h.fresh s (List.mem_append_right _ hs)

theorem tail {s : Site} (h : Ready d (s :: ss)) : Ready d ss := by
  have happend : Ready d ([s] ++ ss) := h
  exact happend.right ((Apart.refl d).mono (List.nil_subset _))

theorem head {s : Site} (h : Ready d (s :: ss)) (hd : Apart ss d d') : Ready d' [s] := by
  obtain ⟨hs, -⟩ := List.nodup_cons.1 h.nodup
  obtain ⟨hty, hunbound⟩ := h.fresh s List.mem_cons_self
  refine ⟨by simp, ?_, List.forall_mem_singleton.2 ⟨?_, hd.unbound s hs hunbound⟩⟩
  · exact fun hn => h.marked (List.mem_cons.2 (.inl (List.mem_singleton.1 hn)))
  · exact (hd.typeAt s hs).trans hty

theorem exists_eq_some {s : Site} (h : Ready d [s]) : ∃ n, s = some n := by
  cases s with
  | none => exact absurd List.mem_cons_self h.marked
  | some n => exact ⟨n, rfl⟩

theorem unbound {s : Site} (h : Ready d [s]) : Unbound d s := (h.fresh s List.mem_cons_self).2

theorem typeAt {s : Site} (h : Ready d [s]) : typeAt d s = none := (h.fresh s List.mem_cons_self).1

end Ready

/-! ## 3. Straight-line code

The class of terms for which types are sound: literals and names, and a few kinds of nodes over such terms.
There are no functions, calls, arrays or conditionals in it. -/

/-- The operators of straight-line code. -/
def operators : List Action := [.add, .sub, .mul, .pow, .eq, .less, .more]

/-- Straight-line code: literals, variables, assignments, operators, brackets, printing, checks, and
blocks that are not empty. -/
inductive Straight : Term → Prop where
  | literal {b : Base} (hb : b.isLiteral = true) (s : Site) (p : Term) :
      Straight (.leaf (.datum b.datum) s p)
  | var (s : Site) (name : Term) : Straight (.leaf (.datum .var) s name)
  | assign (s s' : Site) (name : Term) {right : Term} (h : Straight right) :
      Straight (.node (.action .assign) s [.leaf (.datum .var) s' name, right])
  | binary {a : Action} (ha : a ∈ operators) (s : Site) {left right : Term} (hl : Straight left)
      (hr : Straight right) : Straight (.node (.action a) s [left, right])
  | parens (s : Site) {arg : Term} (h : Straight arg) : Straight (.node (.action .parens) s [arg])
  | print (s : Site) {arg : Term} (h : Straight arg) : Straight (.node (.action .print) s [arg])
  | check (s : Site) {arg : Term} (h : Straight arg) : Straight (.node (.action .check) s [arg])
  | block (s : Site) {ts : List Term} (hne : ts ≠ []) (h : ∀ t ∈ ts, Straight t) :
      Straight (.node (.action .block) s ts)

theorem Straight.site_mem_sites (h : Straight t) : t.site ∈ t.sites := by
  cases h <;> exact List.mem_cons_self

/-- No term of straight-line code is mistaken for a missing one. -/
theorem Straight.truth_eq (h : Straight t) : t.truth = .ok true := by
  cases h with
  | @literal b hb => cases b <;> first | rfl | cases hb
  | @block _ ts hne =>
    cases ts with
    | nil => exact absurd rfl hne
    | cons => rfl
  | _ => rfl

/-! ## 4. Inference

For each form of code the three things are kept up.  What a term is typed as, what evaluation makes of it
(`Sound`) and what has become of the desk are shown together, since each part of a term is typed at the desk
that the part before has left. -/

/-- What is known after a type has been found: the term is sound, the type gives back the kind of its
value, and so do the notes. -/
structure Inferred (Γ : Env) (t : Term) (d : Desk) (ty : Term) (d' : Desk) (b : Base) (Γ' : Env) :
    Prop where
  sound : Sound Γ t b Γ'
  ret : ∃ s args, ty = .signature s args b.kind
  shown : typeAt d' t.site = some ty
  reads : Reads Γ' d'
  apart : Apart t.sites d d'

/-- Wherever a type is found for the term, it is right. -/
def Infers (t : Term) : Prop :=
  ∀ {Γ : Env} {d d' : Desk} {ty : Term}, Ready d t.sites → Reads Γ d →
    (infer t).run d = (.ok ty, d') → ∃ b Γ', Inferred Γ t d ty d' b Γ'

theorem Inferred.shows {b : Base} {Γ' : Env} (h : Inferred Γ t d ty d' b Γ') : Shows d' t b := by
  obtain ⟨s, args, rfl⟩ := h.ret
  exact ⟨s, args, h.shown⟩

/-- The last step is to note the type, against a site that no name is bound to.  It is the site of the term
itself and not that of a part, so no name has been bound to it while the parts were typed. -/
theorem inferred_of_setType {s : Site} {ss : List Site} {d₁ : Desk} {b : Base} {Γ' : Env} {u : Unit}
    (hsite : t.site = s) (hsites : t.sites = s :: ss) (hready : Ready d (s :: ss))
    (hd : Apart ss d d₁) (hreads : Reads Γ' d₁) (hsound : Sound Γ t b Γ')
    (hret : ∃ s args, ty = .signature s args b.kind) (h : (setType t ty).run d₁ = (.ok u, d')) :
    Inferred Γ t d ty d' b Γ' := by
  have hone := hready.head hd
  obtain ⟨n, rfl⟩ := hone.exists_eq_some
  obtain rfl := ok_setType hsite h
  refine ⟨hsound, hret, ?_, hreads.withType hone.unbound ty, ?_⟩
  · rw [hsite, typeAt_withType, if_pos rfl]
  · rw [hsites]
    exact (hd.trans (.withType d₁ n ty)).mono (by simp)

theorem ok_setType_pure {v : Term} (h : (do setType t v; pure v : Typing Term).run d = (.ok ty, d')) :
    ty = v ∧ ∃ u, (setType t v).run d = (.ok u, d') := by
  obtain ⟨u, d₁, hset, hpure⟩ := ok_of_run_bind h
  obtain ⟨hty, rfl⟩ := Prod.mk.inj hpure
  exact ⟨(Except.ok.inj hty).symm, u, hset⟩

/-- A literal has the type of its kind. -/
theorem infers_literal {b : Base} (hb : b.isLiteral = true) (s : Site) (p : Term) :
    Infers (.leaf (.datum b.datum) s p) := by
  intro Γ d d' ty hready hreads h
  have hinfer : infer (.leaf (.datum b.datum) s p) = (do
      let ty ← signature .nothing (.kind b.kind)
      setType (.leaf (.datum b.datum) s p) ty
      return ty) := by
    cases b <;> rfl
  rw [hinfer] at h
  obtain ⟨v, d₁, hv, hrest⟩ := ok_of_run_bind h
  obtain ⟨s', as, k, next, rfl, hk, rfl⟩ := ok_signature hv
  obtain rfl := Option.some.inj hk
  obtain ⟨rfl, u, hset⟩ := ok_setType_pure hrest
  exact ⟨b, Γ, inferred_of_setType rfl rfl hready ((Apart.refl d).withNext next) hreads
    (sound_literal hb p) ⟨_, _, rfl⟩ hset⟩

/-- A variable has the type that is noted for what its name is bound to, which is the kind of its value. -/
theorem infers_var (s : Site) (name : Term) : Infers (.leaf (.datum .var) s name) := by
  intro Γ d d' ty hready hreads h
  obtain ⟨n, rfl⟩ := hready.exists_eq_some
  obtain ⟨x, ref, rfl, href, htype⟩ := ok_inferVar_use hready.typeAt h
  rcases hreads x with ⟨hnone, -⟩ | ⟨t, b, ht, hb, s, args, hv⟩
  · rw [hnone] at href
    cases href
  · obtain rfl := Option.some.inj (href.symm.trans ht)
    obtain ⟨rfl, rfl⟩ := htype _ hv
    refine ⟨b, Γ, sound_var hb, ⟨s, args, rfl⟩, ?_, hreads.withType hready.unbound _, .withType d n _⟩
    rw [Term.site, typeAt_withType, if_pos rfl]

theorem sites_pair (k : NodeKind) (s : Site) (t u : Term) :
    (Term.node k s [t, u]).sites = s :: (t.sites ++ u.sites) := by
  simp [Term.sites, Term.sitesAll]

theorem sites_single (k : NodeKind) (s : Site) (t : Term) :
    (Term.node k s [t]).sites = s :: t.sites := by
  simp [Term.sites, Term.sitesAll]

/-- The name is bound to the term on the right and not to the variable.  That the note on the variable leaves
the types of names alone is due to the two having different sites. -/
theorem infers_assign (s s' : Site) (name : Term) {right : Term} (hstraight : Straight right)
    (ih : Infers right) :
    Infers (.node (.action .assign) s [.leaf (.datum .var) s' name, right]) := by
  intro Γ d d' ty hready hreads h
  rw [sites_pair] at hready
  have hvar : Ready d (s' :: right.sites) := hready.tail
  obtain ⟨v, d₁, hright, hrest⟩ := ok_of_run_bind h
  obtain ⟨b, Γ₁, hb⟩ := ih hvar.tail hreads hright
  have hone := hvar.head hb.apart
  obtain ⟨m, rfl⟩ := hone.exists_eq_some
  obtain ⟨v', d₂, hassign, hrest⟩ := ok_of_run_bind hrest
  obtain ⟨x, rfl, htype⟩ := ok_inferVar_assign hone.typeAt hstraight.truth_eq hassign
  obtain ⟨rfl, rfl⟩ := htype _ hb.shown
  obtain ⟨rfl, u, hset⟩ := ok_setType_pure hrest
  -- the variable is another term than the one its name is bound to now
  have hne : some m ∉ [right.site] := by
    intro hm
    rw [List.mem_singleton.1 hm] at hvar
    exact (List.nodup_cons.1 hvar.nodup).1 hstraight.site_mem_sites
  have hbound := hb.reads.set x hb.shows
  have hunbound := (Apart.set d₁ x right).unbound (some m) hne hone.unbound
  have hsub : right.sites ++ [right.site] ++ [some m] ⊆ some m :: right.sites := by
    simp [hstraight.site_mem_sites]
  have hd := ((hb.apart.trans (.set d₁ x right)).trans (.withType _ m ty)).mono hsub
  exact ⟨b, Γ₁.set x b, inferred_of_setType rfl (sites_pair _ _ _ _) hready hd
    (hbound.withType hunbound _) (sound_assign hb.sound) hb.ret hset⟩

/-- What an operator does with the types of its operands, if they give back values. -/
theorem inferBinary_eq {a : Action} (ha : a ∈ operators) (t : Term) (s s' : Site) (as as' : SigArgs)
    (b c : Base) :
    ∃ r ret, resultOf a b = some r ∧ kindFor? ret = some r.kind ∧
      inferBinary a t (.signature s as b.kind) (.signature s' as' c.kind) =
        if b.kind ≠ c.kind then
          throw (.operandTypes (.signature s as b.kind) (.signature s' as' c.kind))
        else do
          let ty ← signature (.seq [.signature s as b.kind, .signature s' as' c.kind]) ret
          setType t ty
          return ty := by
  simp only [operators, List.mem_cons, List.not_mem_nil, or_false] at ha
  rcases ha with rfl | rfl | rfl | rfl | rfl | rfl | rfl
  all_goals
    refine ⟨_, _, rfl, ?_, rfl⟩
    rfl

/-- An operator takes operands whose types give back the same. -/
theorem ok_inferBinary {a : Action} (ha : a ∈ operators) {s s' : Site} {as as' : SigArgs} {b c : Base}
    (h : (inferBinary a t (.signature s as b.kind) (.signature s' as' c.kind)).run d = (.ok ty, d')) :
    b = c ∧ ∃ r, resultOf a b = some r ∧ (∃ s args, ty = .signature s args r.kind) ∧
      ∃ next u, (setType t ty).run { d with next := next } = (.ok u, d') := by
  obtain ⟨r, ret, hr, hret, hinfer⟩ := inferBinary_eq ha t s s' as as' b c
  rw [hinfer] at h
  by_cases hbc : b.kind = c.kind
  · rw [if_neg (not_not_intro hbc)] at h
    obtain ⟨v, d₁, hv, hrest⟩ := ok_of_run_bind h
    obtain ⟨s', as, k, next, rfl, hk, rfl⟩ := ok_signature hv
    obtain rfl := Option.some.inj (hret.symm.trans hk)
    obtain ⟨rfl, u, hset⟩ := ok_setType_pure hrest
    exact ⟨Base.eq_of_kind hbc, r, hr, ⟨_, _, rfl⟩, next, u, hset⟩
  · rw [if_pos hbc] at h
    cases h

/-- An operator that gets a type has operands of one kind, so evaluation will not find different ones. -/
theorem infers_binary {a : Action} (ha : a ∈ operators) (s : Site) {left right : Term}
    (ihl : Infers left) (ihr : Infers right) : Infers (.node (.action a) s [left, right]) := by
  intro Γ d d' ty hready hreads h
  have hinfer : infer (.node (.action a) s [left, right]) = (do
      let l ← infer left
      let r ← infer right
      inferBinary a (.node (.action a) s [left, right]) l r) := by
    simp only [operators, List.mem_cons, List.not_mem_nil, or_false] at ha
    rcases ha with rfl | rfl | rfl | rfl | rfl | rfl | rfl <;> rfl
  rw [hinfer] at h
  rw [sites_pair] at hready
  obtain ⟨l, d₁, hl, hrest⟩ := ok_of_run_bind h
  obtain ⟨b, Γ₁, hb⟩ := ihl hready.tail.left hreads hl
  obtain ⟨r, d₂, hr, hrest⟩ := ok_of_run_bind hrest
  obtain ⟨c, Γ₂, hc⟩ := ihr (hready.tail.right hb.apart) hb.reads hr
  obtain ⟨_, _, rfl⟩ := hb.ret
  obtain ⟨_, _, rfl⟩ := hc.ret
  obtain ⟨rfl, result, hresult, hret, next, u, hset⟩ := ok_inferBinary ha hrest
  have hd := (hb.apart.trans hc.apart).withNext next
  exact ⟨result, Γ₂, inferred_of_setType rfl (sites_pair _ _ _ _) hready hd hc.reads
    (sound_binary hresult hb.sound hc.sound) hret hset⟩

/-- What has one operand and takes its type from it. -/
theorem infers_unary {a : Action} {s : Site} {arg : Term}
    (hinfer : infer (.node (.action a) s [arg]) = (do
      let ty ← infer arg
      setType (.node (.action a) s [arg]) ty
      return ty))
    (hsound : ∀ {Γ Γ₁ : Env} {b : Base}, Sound Γ arg b Γ₁ → Sound Γ (.node (.action a) s [arg]) b Γ₁)
    (ih : Infers arg) : Infers (.node (.action a) s [arg]) := by
  intro Γ d d' ty hready hreads h
  rw [hinfer] at h
  rw [sites_single] at hready
  obtain ⟨v, d₁, hv, hrest⟩ := ok_of_run_bind h
  obtain ⟨b, Γ₁, hb⟩ := ih hready.tail hreads hv
  obtain ⟨rfl, u, hset⟩ := ok_setType_pure hrest
  exact ⟨b, Γ₁, inferred_of_setType rfl (sites_single _ _ _) hready hb.apart hb.reads
    (hsound hb.sound) hb.ret hset⟩

/-- A check has the type of what is checked, and it is noted before it is asked whether this is a truth value.
-/
theorem infers_check (s : Site) {arg : Term} (ih : Infers arg) :
    Infers (.node (.action .check) s [arg]) := by
  intro Γ d d' ty hready hreads h
  rw [sites_single] at hready
  obtain ⟨v, d₁, hv, hrest⟩ := ok_of_run_bind h
  obtain ⟨b, Γ₁, hb⟩ := ih hready.tail hreads hv
  obtain ⟨u, d₂, hset, hrest⟩ := ok_of_run_bind hrest
  obtain ⟨_, d₃, hbool, hpure⟩ := ok_of_run_bind hrest
  obtain ⟨-, rfl⟩ := ok_of_run_lift hbool
  obtain ⟨hty, rfl⟩ := Prod.mk.inj hpure
  obtain rfl := Except.ok.inj hty
  exact ⟨b, Γ₁, inferred_of_setType rfl (sites_single _ _ _) hready hb.apart hb.reads
    (sound_check hb.sound) hb.ret hset⟩

/-- The statements of a block are typed in order, and each type is noted as that of the block.  The last one
stays, as the last value is that of the block. -/
theorem ok_inferRow {block : Term} {n : Nat} (hsite : block.site = some n) {ts : List Term}
    (hne : ts ≠ []) (ih : ∀ t ∈ ts, Infers t) {u : Unit} (hready : Ready d (Term.sitesAll ts))
    (hn : some n ∉ Term.sitesAll ts) (hunbound : Unbound d (some n)) (hreads : Reads Γ d)
    (h : (inferRow block ts).run d = (.ok u, d')) :
    ∃ b Γ' ty, SoundRow Γ ts b Γ' ∧ (∃ s args, ty = .signature s args b.kind) ∧
      typeAt d' (some n) = some ty ∧ Reads Γ' d' ∧ Apart (some n :: Term.sitesAll ts) d d' := by
  induction ts generalizing Γ d with
  | nil => exact absurd rfl hne
  | cons t ts ihts =>
    obtain ⟨iht, ih⟩ := List.forall_mem_cons.1 ih
    obtain ⟨hnt, hnts⟩ := not_or.1 (mt List.mem_append.2 hn)
    obtain ⟨v, d₁, hv, hrest⟩ := ok_of_run_bind h
    obtain ⟨b, Γ₁, hb⟩ := iht hready.left hreads hv
    obtain ⟨u', d₂, hset, hrest⟩ := ok_of_run_bind hrest
    obtain rfl := ok_setType hsite hset
    have hunbound₁ := hb.apart.unbound _ hnt hunbound
    have hreads₂ := hb.reads.withType hunbound₁ v
    have hd₂ := hb.apart.trans (.withType d₁ n v)
    cases ts with
    | nil =>
      obtain ⟨-, rfl⟩ := Prod.mk.inj hrest
      refine ⟨b, Γ₁, v, soundRow_one hb.sound, hb.ret, ?_, hreads₂, hd₂.mono ?_⟩
      · rw [typeAt_withType, if_pos rfl]
      · simp [Term.sitesAll]
    | cons t' ts =>
      have hready₂ := (hready.right hb.apart).of_apart (.withType d₁ n v) fun s hs hm =>
        hnts (List.mem_singleton.1 hm ▸ hs)
      obtain ⟨c, Γ₂, ty, hrow, hret, hty, hreads', hd⟩ :=
        ihts (List.cons_ne_nil _ _) ih hready₂ hnts hunbound₁ hreads₂ hrest
      refine ⟨c, Γ₂, ty, soundRow_cons hb.sound hrow, hret, hty, hreads', (hd₂.trans hd).mono ?_⟩
      intro s hs
      simp only [Term.sitesAll, List.mem_append, List.mem_cons, List.not_mem_nil, or_false] at hs ⊢
      grind

/-- A block has the type of its last statement. -/
theorem infers_block (s : Site) {ts : List Term} (hne : ts ≠ []) (ih : ∀ t ∈ ts, Infers t) :
    Infers (.node (.action .block) s ts) := by
  intro Γ d d' ty hready hreads h
  have hone : Ready d [s] := hready.left
  obtain ⟨n, rfl⟩ := hone.exists_eq_some
  obtain ⟨u, d₁, hrow, htype⟩ := ok_of_run_bind h
  obtain ⟨b, Γ', v, hsound, hret, hv, hreads', hd⟩ :=
    ok_inferRow rfl hne ih hready.tail (List.nodup_cons.1 hready.nodup).1 hone.unbound hreads hrow
  rw [run_typeOf hv] at htype
  obtain ⟨hty, rfl⟩ := Prod.mk.inj htype
  obtain rfl := Except.ok.inj hty
  exact ⟨b, Γ', sound_block hsound, hret, hv, hreads', hd⟩

/-- **All straight-line code**, by induction on its form. -/
theorem infers_of_straight (h : Straight t) : Infers t := by
  induction h with
  | literal hb s p => exact infers_literal hb s p
  | var s name => exact infers_var s name
  | assign s s' name h ih => exact infers_assign s s' name h ih
  | binary ha s _ _ ihl ihr => exact infers_binary ha s ihl ihr
  | parens s _ ih => exact infers_unary rfl sound_parens ih
  | print s _ ih => exact infers_unary rfl sound_print ih
  | check s _ ih => exact infers_check s ih
  | block s hne _ ih => exact infers_block s hne ih

/-! ## 5. Soundness

Where no name is bound the notes and the values agree, so the above applies to the whole code. -/

/-- **Types that are found are right.**  Let straight-line code be typed where no name is bound, and let its
terms be told apart by their sites, against which no type is noted.  If a type is found, then evaluation
where no name is bound never meets operands of different kinds, and a value that it gives back is of the
kind that the type gives back. -/
theorem infer_sound {t ty : Term} {T : Kind} {d d' : Desk} (ht : Straight t) (hnodup : t.sites.Nodup)
    (hmarked : none ∉ t.sites) (hscope : d.scope = {}) (hfresh : ∀ s ∈ t.sites, typeAt d s = none)
    (hinfer : (infer t).run d = (.ok ty, d')) (hret : retOf ty = .ok T) (out : String) :
    (∀ op l r w, t.eval.run { out := out } ≠ (.error (.mixedOperands op l r), w)) ∧
    ∀ v w, t.eval.run { out := out } = (.ok v, w) → v.kindOf = T := by
  have hnone : ∀ x, d.scope.get? x = none := by
    intro x
    rw [hscope]
    rfl
  have hready : Ready d t.sites := by
    refine ⟨hnodup, hmarked, fun s hs => ⟨hfresh s hs, fun x u hu => ?_⟩⟩
    rw [hnone x] at hu
    cases hu
  have hreads : Reads (fun _ => none) d := fun x => .inl ⟨hnone x, rfl⟩
  obtain ⟨b, Γ', h⟩ := infers_of_straight ht hready hreads hinfer
  obtain ⟨s, args, rfl⟩ := h.ret
  obtain rfl := Except.ok.inj hret
  have hsafe := h.sound Eval.depthLimit { out := out } fun x => rfl
  constructor
  · intro op l r w hrun
    rw [Term.eval] at hrun
    rw [hrun] at hsafe
    cases hsafe
  · intro v w hrun
    rw [Term.eval] at hrun
    rw [hrun] at hsafe
    exact hsafe.1

/-- A name that is bound to values of two kinds, one after the other. -/
def sampleStatements : List Term :=
  [ .node (.action .assign) (some 1)
      [.leaf (.datum .var) (some 2) (.text "x"), .leaf (.datum .int) (some 3) (.number 1)],
    .node (.action .assign) (some 4)
      [.leaf (.datum .var) (some 5) (.text "x"), .leaf (.datum .str) (some 6) (.text "a")],
    .node (.action .eq) (some 7)
      [.leaf (.datum .var) (some 8) (.text "x"), .leaf (.datum .var) (some 9) (.text "x")] ]

def sampleBlock : Term := .node (.action .block) (some 0) sampleStatements

theorem straight_sampleBlock : Straight sampleBlock := by
  refine .block _ (List.cons_ne_nil _ _) ?_
  simp only [sampleStatements, List.forall_mem_cons]
  refine ⟨?_, ?_, ?_, List.forall_mem_nil _⟩
  · exact .assign _ _ _ (.literal (b := .int) rfl _ _)
  · exact .assign _ _ _ (.literal (b := .str) rfl _ _)
  · exact .binary (by decide) _ (.var _ _) (.var _ _)

theorem infer_sound_sample :
    (∃ s args d', (infer sampleBlock).run {} = (.ok (.signature s args (.datum .bool)), d')) ∧
    (∀ op l r w, sampleBlock.eval.run { out := "" } ≠ (.error (.mixedOperands op l r), w)) ∧
    ∀ v w, sampleBlock.eval.run { out := "" } = (.ok v, w) → v.kindOf = .datum .bool := by
  have hinfer : (infer sampleBlock).run {} = (.ok (.signature _ _ (.datum .bool)), _) := rfl
  have hfresh : ∀ s ∈ sampleBlock.sites, typeAt {} s = none := by decide
  exact ⟨⟨_, _, _, hinfer⟩,
    infer_sound straight_sampleBlock (by decide) (by decide) rfl hfresh hinfer rfl ""⟩

end Typing

end Offside
