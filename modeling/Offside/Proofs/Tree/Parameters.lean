import Offside.Proofs.Tree.Shape
/-!
# Parameters of functions

What stands before an arrow is taken for the parameters of a function if it holds one thing, and that is a
name or several leaves with commas between them (`ParameterList`).  Everything else is refused, and it can
be told from the term with which error (`Refused`).  So a text has a syntax tree, as far as its statements
can be read, if and only if there is a list of parameters before every arrow between two operands
(`parameters_before_arrows`).

Round brackets are not the only thing that holds one thing: square brackets do, and so do a sign before an
operand, a call without arguments and a block of one statement.  A leaf between commas need not be a name
either; whatever it is, its text becomes the name of the parameter.

That there is nothing else with one child depends on the powers of the signs.  `p x -> y` prints a function,
because printing binds weaker than the arrow; `- x -> y` is a function with a sign before its parameter.
-/

namespace Offside

namespace Tree

open Precedence (OpTree Joiner)
open Term (Everywhere everywhere_node_iff everywhere_token_iff)

/-! ## 1. Lists of parameters

Which terms are accepted before an arrow and which are refused, each as an inductive predicate that follows
what the function looks at: whether the term has children, how many there are, and of what kind the one child
is.  Brackets of either form count, and so does every other node with one child that can stand there
(`holdsParameters`). -/

/-- The kinds of nodes that can stand before an arrow with one child. -/
def holdsParameters : Phrase → Bool
  | .parens | .brackets | .minus | .plus | .callBare | .block => true
  | _ => false

/-- A leaf that has been read from a text. -/
def leafOf (i : Word × String) : Term := .word i.1 i.2

/-- The term is a list of parameters with these names. -/
inductive ParameterList : Term → List String → Prop where
  | one {p : Phrase} (hp : holdsParameters p = true) (x : String) :
      ParameterList (.phrase p [.word .id x]) [x]
  | several {p : Phrase} (hp : holdsParameters p = true) (items : List (Word × String)) :
      ParameterList (.phrase p [.phrase .comma (items.map leafOf)]) (items.map Prod.snd)

/-- The term is no list of parameters, and this is the error: it is a leaf; it does not hold one thing; this
thing is neither a name nor a comma; or the first item of the comma that is no leaf has no text. -/
inductive Refused : Term → Error → Prop where
  | leaf (w : Word) (s : String) : Refused (.word w s) .wrongKind
  | count (p : Phrase) {kids : List Term} (h : kids.length ≠ 1) : Refused (.phrase p kids) .parameterList
  | content (p : Phrase) {t : Term} (hid : t.isWord .id = false) (hcomma : t.isPhrase .comma = false) :
      Refused (.phrase p [t]) .parameterNames
  | item (p : Phrase) (items : List (Word × String)) (q : Phrase) (kids rest : List Term) :
      Refused (.phrase p [.phrase .comma (items.map leafOf ++ .phrase q kids :: rest)])
        (.lacks (.phrase q) "value")

/-- What becomes of a parameter. -/
def asName (t : Term) : Except Error Term := do return .leaf (.word .id) none (← t.value)

/-- Leaves become names, and what comes after them is done afterwards. -/
theorem mapM_asName (items : List (Word × String)) (ts : List Term) :
    (items.map leafOf ++ ts).mapM asName =
      (ts.mapM asName).bind fun us => .ok ((items.map Prod.snd).map (.word .id) ++ us) := by
  induction items with
  | nil => cases hts : ts.mapM asName <;> simp [hts, Except.bind]
  | cons i items ih =>
    have hi : asName (leafOf i) = .ok (.word .id i.2) := rfl
    rw [List.map_cons, List.cons_append, List.mapM_cons, hi, ih]
    cases ts.mapM asName <;> rfl

theorem parameters_comma (p : Phrase) (items : List Term) :
    parameters (.phrase p [.phrase .comma items]) =
      (items.mapM asName).bind fun us => .ok (.phrase .list us) := rfl

/-- A list of parameters is accepted, and these are the names. -/
theorem parameters_of_parameterList {args : Term} {names : List String} (h : ParameterList args names) :
    parameters args = .ok (.phrase .list (names.map (.word .id))) := by
  cases h with
  | one => rfl
  | several hp items =>
    have hitems := mapM_asName items []
    rw [List.append_nil] at hitems
    rw [parameters_comma, hitems]
    simp [Except.bind, pure, Except.pure]

/-- All else is refused with the error that belongs to it. -/
theorem parameters_of_refused {args : Term} {e : Error} (h : Refused args e) :
    parameters args = .error e := by
  cases h with
  | leaf => rfl
  | @count p kids h =>
    match kids, h with
    | [], _ => rfl
    | _ :: _ :: _, _ => simp [parameters, Term.phrase, Term.members, Term.members?, bind, Except.bind]
  | @content p t hid hcomma =>
    have hmembers : (Term.phrase p [t]).members = .ok [t] := rfl
    simp only [parameters, hmembers, bind, Except.bind]
    split
    · rename_i heq
      cases heq
      cases hcomma
    · rename_i heq
      cases heq
      cases hid
    · rfl
    · rename_i hone
      exact absurd rfl (hone t)
  | item p items q kids rest =>
    rw [parameters_comma, mapM_asName, List.mapM_cons]
    rfl

/-! ## 2. What stands before an arrow

The left operand of an arrow yields to it: the signs along its right edge bind at least as strong as the arrow
does.  Among the nodes with one child this leaves the two signs of arithmetic before an operand, brackets,
calls without arguments and blocks. -/

/-- If the term has one child, it is of a kind that can stand before an arrow with one child. -/
def StandsBefore (args : Term) : Prop :=
  ∀ k s t, args = .node k s [t] → ∃ p, k = .phrase p ∧ holdsParameters p = true

/-- The kinds of terms that can stand before an arrow.  An arrow binds stronger than printing, checking,
selecting and an arrow without a left operand do, and so these take it into their operand; all other nodes
with one child may stand before it. -/
theorem standsBefore_term {e : OpTree} (h : e.Yields (Joiner.power .lambda)) : StandsBefore e.term := by
  intro k s t heq
  cases e with
  | atom tok htok =>
    cases (show tok = .node k s [t] from heq)
    cases k with
    | phrase p =>
      cases p with
      | block => exact ⟨.block, rfl, rfl⟩
      | _ => cases htok
    | _ => cases htok
  | alone l => cases heq
  | before o arg =>
    have hpower : Joiner.power .lambda ≤ o.power := h _ List.mem_cons_self
    obtain ⟨rfl, -, -⟩ := Term.node.inj heq
    refine ⟨o.phrase, rfl, ?_⟩
    cases o with
    | minus => rfl
    | plus => rfl
    | _ => exact absurd hpower (by decide)
  | enclosed b inner =>
    obtain ⟨rfl, -, -⟩ := Term.node.inj heq
    exact ⟨b.phrase, rfl, by cases b <;> rfl⟩
  | between o left right =>
    by_cases ho : o = .comma
    · subst ho
      obtain ⟨-, -, hkids⟩ := Term.node.inj heq
      exact absurd hkids (OpTree.commaItems_comma_ne left right t)
    · rw [OpTree.term_between ho] at heq
      obtain ⟨-, -, hkids⟩ := Term.node.inj heq
      cases hkids
  | bareCall left =>
    obtain ⟨rfl, -, -⟩ := Term.node.inj heq
    exact ⟨.callBare, rfl, rfl⟩
  | index left inner =>
    obtain ⟨-, -, hkids⟩ := Term.node.inj heq
    cases hkids
  | choice left condition other =>
    obtain ⟨-, -, hkids⟩ := Term.node.inj heq
    cases hkids

/-- If the term is a function, its left operand can stand before an arrow. -/
def Arrowed (t : Term) : Prop :=
  ∀ s args body, t = .node (.phrase .lambda) s [args, body] → StandsBefore args

theorem arrowed_phrase {p : Phrase} (hp : p ≠ .lambda) (s : Site) (kids : List Term) :
    Arrowed (.node (.phrase p) s kids) := by
  intro s' args body h
  obtain ⟨hkind, -, -⟩ := Term.node.inj h
  exact absurd (NodeKind.phrase.inj hkind) hp

/-- Of the nodes of a tree only an arrow between two operands has anything to show, and its left operand
yields to it. -/
theorem arrowed_term {e : OpTree} (he : e.Respects) (hne : ∀ tok htok, e ≠ .atom tok htok) :
    Arrowed e.term := by
  cases e with
  | atom tok htok => exact absurd rfl (hne tok htok)
  | alone l =>
    rintro s args body ⟨⟩
  | before o => exact arrowed_phrase (by cases o <;> decide) _ _
  | enclosed b => exact arrowed_phrase (by cases b <;> decide) _ _
  | between o left right =>
    cases o with
    | lambda =>
      intro s args body h
      obtain ⟨-, -, hkids⟩ := Term.node.inj h
      obtain ⟨rfl, -⟩ := List.cons.inj hkids
      exact standsBefore_term he.1
    | _ => exact arrowed_phrase (by decide) _ _
  | bareCall => exact arrowed_phrase (by decide) _ _
  | index => exact arrowed_phrase (by decide) _ _
  | choice => exact arrowed_phrase (by decide) _ _

/-- So it is in every tree that statements are read into. -/
theorem makes_precedence_arrowed : Makes Pass.precedence.apply Raw (Everywhere Arrowed) where
  token := by
    intro t t' ht _ hf
    obtain rfl := Pass.eq_of_token .precedence ht hf
    refine (everywhere_token_iff ht).2 ?_
    rintro s args body rfl
    cases ht
  node := by
    intro k s kids kids' t' hraw _ hall hf
    cases hraw with
    | statement =>
      obtain ⟨e, he, rfl, rfl⟩ := Precedence.read_sound hf
      exact everywhere_of_roots (fun _ => arrowed_term) e he fun u hu _ => hall u hu
    | block =>
      obtain rfl := Pass.eq_of_node .precedence rfl hf
      exact everywhere_node_iff.2 ⟨arrowed_phrase (by decide) _ _, hall⟩

/-! ## 3. Trees before their parameters are named

Parameters are named by the last pass but one, so `sketch` is what there is before it.  Its terms have the
children that their kinds ask for, and what stands before an arrow is known (`Sketched`). -/

/-- The tree that is made of blocks of statements before parameters are named. -/
def sketch (t : Term) : Except Error Term := do
  let t ← Pass.nameParameters.run t
  let t ← Pass.insertCalls.run t
  Pass.precedence.run t

theorem parse_eq_bind_sketch (t : Term) :
    parse t = sketch t >>= fun u => Pass.nameParameters.run u >>= Pass.bracketArguments.run := by
  simp only [parse, sketch, passes, List.foldlM, bind_assoc, bind_pure]

/-- What there is in such a tree. -/
structure Sketched (t : Term) : Prop where
  drafted : Drafted t
  arrowed : Arrowed t

/-- The tree before parameters are named, from the three passes that make it. -/
theorem exists_sketch {kids : List Term} {u : Term} (hraw : (Term.phrase .block kids).Everywhere Raw)
    (h : sketch (.phrase .block kids) = .ok u) :
    ∃ kids', u = .phrase .block kids' ∧ u.Everywhere Sketched := by
  obtain ⟨b₁, h₁, h⟩ := ok_of_bind h
  obtain ⟨b₂, h₂, h₃⟩ := ok_of_bind h
  obtain ⟨v₁, kids₁, rfl⟩ := Pass.visits_of_run _ h₁
  obtain ⟨v₂, kids₂, rfl⟩ := Pass.visits_of_run _ h₂
  obtain ⟨v₃, kids₃, rfl⟩ := Pass.visits_of_run _ h₃
  have hraw₁ := makes_nameParameters_raw.of_visits _ hraw v₁
  have hraw₂ := makes_insertCalls_raw.of_visits _ hraw₁ v₂
  have hdrafted := makes_precedence.of_visits _ hraw₂ v₃ rfl
  have harrowed := makes_precedence_arrowed.of_visits _ hraw₂ v₃
  exact ⟨kids₃, rfl, Everywhere.imp (fun _ h => ⟨h.1, h.2⟩) _ (Everywhere.and _ hdrafted harrowed)⟩

/-- Items are leaves up to the first one that is not. -/
theorem leaves_or_phrase {ts : List Term} (h : ∀ t ∈ ts, Drafted t) :
    (∃ items : List (Word × String), ts = items.map leafOf) ∨
      ∃ (items : List (Word × String)) (q : Phrase) (kids rest : List Term),
        ts = items.map leafOf ++ .phrase q kids :: rest := by
  induction ts with
  | nil => exact .inl ⟨[], rfl⟩
  | cons t ts ih =>
    obtain ⟨ht, hts⟩ := List.forall_mem_cons.1 h
    cases ht with
    | word w s =>
      rcases ih hts with ⟨items, rfl⟩ | ⟨items, q, kids, rest, rfl⟩
      · exact .inl ⟨(w, s) :: items, rfl⟩
      · exact .inr ⟨(w, s) :: items, q, kids, rest, rfl⟩
    | @phrase q kids _ => exact .inr ⟨[], q, kids, ts, rfl⟩

/-- **There is nothing in between.**  The term is a leaf or a node.  A node that does not have one child is
refused; if it has one, it is of a kind that holds parameters.  If this child is a comma, it is a list of
parameters unless one of its items is no leaf. -/
theorem parameterList_or_refused {args : Term} (hargs : args.Everywhere Drafted)
    (hbefore : StandsBefore args) : (∃ names, ParameterList args names) ∨ ∃ e, Refused args e := by
  cases hargs.self with
  | word w s => exact .inr ⟨_, .leaf w s⟩
  | @phrase p kids _ =>
    by_cases hlength : kids.length = 1
    · obtain ⟨t, rfl⟩ := List.length_eq_one_iff.1 hlength
      obtain ⟨_, ⟨⟩, hp⟩ := hbefore _ _ _ rfl
      have ht := (everywhere_node_iff.1 hargs).2 t List.mem_cons_self
      cases ht.self with
      | word w s =>
        by_cases hw : w = .id
        · subst hw
          exact .inl ⟨_, .one hp s⟩
        · exact .inr ⟨_, .content p (decide_eq_false fun h => hw h.symm) rfl⟩
      | @phrase q items _ =>
        by_cases hq : q = .comma
        · subst hq
          have hitems := (everywhere_node_iff.1 ht).2
          rcases leaves_or_phrase fun u hu => (hitems u hu).self with
            ⟨items, rfl⟩ | ⟨items, q, kids, rest, rfl⟩
          · exact .inl ⟨_, .several hp items⟩
          · exact .inr ⟨_, .item p items q kids rest⟩
        · exact .inr ⟨_, .content p rfl (decide_eq_false fun h => hq h.symm)⟩
    · exact .inr ⟨_, .count p hlength⟩

/-! ## 4. Single functions

Whether parameters can be named, and how, is seen from what stands before the arrow. -/

/-- If the term is a function, it has a list of parameters. -/
def HasParameters (t : Term) : Prop :=
  ∀ s args body, t = .node (.phrase .lambda) s [args, body] → ∃ names, ParameterList args names

/-- If the term is a function, its parameters are named if and only if it has a list of them, and otherwise
the error is known. -/
def Decided (t : Term) : Prop :=
  ∀ s args body, t = .node (.phrase .lambda) s [args, body] →
    (∀ r, nameParameters t = .ok r ↔ ∃ names, ParameterList args names ∧
      r = .node (.phrase .lambda) s [.phrase .list (names.map (.word .id)), body]) ∧
    ∀ e, nameParameters t = .error e ↔ Refused args e

theorem nameParameters_of_parameterList {args : Term} {names : List String} (h : ParameterList args names)
    (s : Site) (body : Term) : nameParameters (.node (.phrase .lambda) s [args, body]) =
      .ok (.node (.phrase .lambda) s [.phrase .list (names.map (.word .id)), body]) := by
  rw [nameParameters, parameters_of_parameterList h]
  rfl

theorem nameParameters_of_refused {args : Term} {e : Error} (h : Refused args e) (s : Site) (body : Term) :
    nameParameters (.node (.phrase .lambda) s [args, body]) = .error e := by
  rw [nameParameters, parameters_of_refused h]
  rfl

theorem parameterList_or_refused_of_sketched {s : Site} {args body : Term}
    (h : (Term.node (.phrase .lambda) s [args, body]).Everywhere Sketched) :
    (∃ names, ParameterList args names) ∨ ∃ e, Refused args e := by
  obtain ⟨hself, hkids⟩ := everywhere_node_iff.1 h
  have hargs := Everywhere.imp (fun _ => Sketched.drafted) args (hkids args List.mem_cons_self)
  exact parameterList_or_refused hargs (hself.arrowed _ _ _ rfl)

/-- What stands before an arrow is a list of parameters or it is refused, and not both, so each of the two can
be told from the outcome. -/
theorem decided_of_sketched {t : Term} (h : t.Everywhere Sketched) : Decided t := by
  rintro s args body rfl
  have hcases := parameterList_or_refused_of_sketched h
  constructor
  · intro r
    constructor
    · intro hr
      rcases hcases with ⟨names, hlist⟩ | ⟨e, hrefused⟩
      · exact ⟨names, hlist, Except.ok.inj (hr.symm.trans (nameParameters_of_parameterList hlist s body))⟩
      · cases (nameParameters_of_refused hrefused s body).symm.trans hr
    · rintro ⟨names, hlist, rfl⟩
      exact nameParameters_of_parameterList hlist s body
  · intro e
    constructor
    · intro he
      rcases hcases with ⟨names, hlist⟩ | ⟨e', hrefused⟩
      · cases (nameParameters_of_parameterList hlist s body).symm.trans he
      · obtain rfl := Except.error.inj ((nameParameters_of_refused hrefused s body).symm.trans he)
        exact hrefused
    · intro hrefused
      exact nameParameters_of_refused hrefused s body

/-! ## 5. The whole pass

The pass visits what stands before an arrow before it names the parameters there.  So the question whether
this is a list of parameters is asked of a term that has been gone through already.  The answer is the same:
in a list of parameters there is nothing to name, and what is refused is still refused, though maybe with
another error (`Refused.of_visits`). -/

theorem nameParameters_holder (p : Phrase) (t : Term) :
    nameParameters (.phrase p [t]) = .ok (.phrase p [t]) := by
  cases p <;> rfl

/-- There is nothing to be done in a list of parameters. -/
theorem ParameterList.visits {args : Term} {names : List String} (h : ParameterList args names) :
    Visits nameParameters args args := by
  cases h with
  | @one p hp x =>
    exact visits_node (visitsAll_one (Pass.visits_token .nameParameters rfl)) (nameParameters_holder p _)
  | @several p hp items =>
    have hleaves : ∀ t ∈ items.map leafOf, t.isNode = false := by
      intro t ht
      obtain ⟨i, -, rfl⟩ := List.mem_map.1 ht
      rfl
    have hcomma := Pass.visits_node .nameParameters (k := .phrase .comma) (s := none) rfl
      (ReadsAll.tokens hleaves).parameters
    exact visits_node (visitsAll_one hcomma) (nameParameters_holder p _)

/-- The pass keeps the kind of a node and the number of its children. -/
theorem exists_of_nameParameters {k : NodeKind} {s : Site} {kids : List Term} {t : Term}
    (h : nameParameters (.node k s kids) = .ok t) :
    ∃ kids', t = .node k s kids' ∧ kids'.length = kids.length := by
  unfold nameParameters at h
  split at h
  · rename_i heq
    obtain ⟨rfl, rfl, rfl⟩ := Term.node.inj heq
    obtain ⟨u, -, h⟩ := ok_of_bind h
    exact ⟨_, (Except.ok.inj h).symm, rfl⟩
  · exact ⟨kids, (Except.ok.inj h).symm, rfl⟩

/-- The pass keeps names and commas what they are. -/
theorem kind_of_visits {t t' : Term} (h : Visits nameParameters t t') :
    t'.isWord .id = t.isWord .id ∧ t'.isPhrase .comma = t.isPhrase .comma := by
  by_cases ht : t.isNode = false
  · obtain rfl := Pass.eq_of_token .nameParameters ht ((visits_token_iff ht).1 h)
    exact ⟨rfl, rfl⟩
  · cases t with
    | node k s kids =>
      obtain ⟨kids', -, hf⟩ := visits_node_iff.1 h
      obtain ⟨kids'', rfl, -⟩ := exists_of_nameParameters hf
      exact ⟨rfl, by cases k <;> rfl⟩
    | _ => exact absurd rfl ht

/-- Leaves at the front stay while the rest is visited. -/
theorem exists_of_visitsAll_leaves {items : List (Word × String)} {t : Term} {rest us : List Term}
    (h : VisitsAll nameParameters (items.map leafOf ++ t :: rest) us) :
    ∃ t' rest', us = items.map leafOf ++ t' :: rest' ∧ Visits nameParameters t t' := by
  induction items generalizing us with
  | nil =>
    obtain ⟨t', rest', rfl, ht, -⟩ := visitsAll_cons_iff.1 h
    exact ⟨t', rest', rfl, ht⟩
  | cons i items ih =>
    obtain ⟨u, us, rfl, hu, hus⟩ := visitsAll_cons_iff.1 h
    obtain ⟨t', rest', rfl, ht⟩ := ih hus
    obtain rfl := Except.ok.inj hu
    exact ⟨t', rest', rfl, ht⟩

/-- What is refused stays so while the pass goes through it. -/
theorem Refused.of_visits {args args' : Term} {e : Error} (h : Refused args e)
    (hv : Visits nameParameters args args') : ∃ e', Refused args' e' := by
  cases h with
  | leaf w s =>
    obtain rfl := Except.ok.inj hv
    exact ⟨_, .leaf w s⟩
  | count p hcount =>
    obtain ⟨kids', hkids, hf⟩ := visits_node_iff.1 hv
    obtain ⟨kids'', rfl, hlength⟩ := exists_of_nameParameters hf
    rw [hkids.length_eq] at hlength
    exact ⟨_, .count p (hlength ▸ hcount)⟩
  | content p hid hcomma =>
    obtain ⟨kids', hkids, hf⟩ := visits_node_iff.1 hv
    obtain ⟨t', _, rfl, ht, hnil⟩ := visitsAll_cons_iff.1 hkids
    obtain rfl := Except.ok.inj hnil
    obtain rfl := Except.ok.inj ((nameParameters_holder p t').symm.trans hf)
    obtain ⟨hid', hcomma'⟩ := kind_of_visits ht
    exact ⟨_, .content p (hid'.trans hid) (hcomma'.trans hcomma)⟩
  | item p items q kids rest =>
    obtain ⟨kids', hkids, hf⟩ := visits_node_iff.1 hv
    obtain ⟨t', _, rfl, ht, hnil⟩ := visitsAll_cons_iff.1 hkids
    obtain rfl := Except.ok.inj hnil
    obtain rfl := Except.ok.inj ((nameParameters_holder p t').symm.trans hf)
    obtain ⟨us, hus, hcomma⟩ := visits_node_iff.1 ht
    obtain rfl := Except.ok.inj hcomma
    obtain ⟨v, rest', rfl, hitem⟩ := exists_of_visitsAll_leaves hus
    obtain ⟨vs, -, hphrase⟩ := visits_node_iff.1 hitem
    obtain ⟨vs', rfl, -⟩ := exists_of_nameParameters hphrase
    exact ⟨_, .item p items q vs' rest'⟩

/-- A function whose parameters were named had a list of them. -/
theorem hasParameters_of_visits {k : NodeKind} {s : Site} {kids kids' : List Term} {r : Term}
    (h : (Term.node k s kids).Everywhere Sketched) (hkids : VisitsAll nameParameters kids kids')
    (hr : nameParameters (.node k s kids') = .ok r) : HasParameters (.node k s kids) := by
  rintro s' args body ⟨⟩
  rcases parameterList_or_refused_of_sketched h with hlist | ⟨e, hrefused⟩
  · exact hlist
  · obtain ⟨args', _, rfl, hvisits, hbody⟩ := visitsAll_cons_iff.1 hkids
    obtain ⟨body', _, rfl, -, hnil⟩ := visitsAll_cons_iff.1 hbody
    obtain rfl := Except.ok.inj hnil
    obtain ⟨e', hrefused'⟩ := hrefused.of_visits hvisits
    cases (nameParameters_of_refused hrefused' s body').symm.trans hr

/-- A function that has a list of parameters still has it when they are named. -/
theorem exists_nameParameters {k : NodeKind} {s : Site} {kids kids' : List Term}
    (h : Drafted (.node k s kids)) (hparameters : HasParameters (.node k s kids))
    (hkids : VisitsAll nameParameters kids kids') : ∃ r, nameParameters (.node k s kids') = .ok r := by
  cases h with
  | @phrase p _ hp =>
    by_cases hlambda : p = .lambda
    · subst hlambda
      obtain ⟨args, body, rfl⟩ := List.length_eq_two.1 hp.fields
      obtain ⟨names, hlist⟩ := hparameters _ _ _ rfl
      obtain ⟨args', _, rfl, hargs, hbody⟩ := visitsAll_cons_iff.1 hkids
      obtain ⟨body', _, rfl, -, hnil⟩ := visitsAll_cons_iff.1 hbody
      obtain rfl := Except.ok.inj hnil
      obtain rfl := Except.ok.inj (hlist.visits.symm.trans hargs)
      exact ⟨_, nameParameters_of_parameterList hlist none body'⟩
    · exact ⟨_, nameParameters_phrase hlambda kids'⟩

mutual

/-- **From single functions to trees.**  By induction on the tree: the pass gets through if and only if it
gets through the children and can name the parameters of the node itself. -/
theorem exists_visits_iff : ∀ t : Term, t.Everywhere Sketched →
    ((∃ r, Visits nameParameters t r) ↔ t.Everywhere HasParameters)
  | .node k s kids, h => by
    have ih := exists_visitsAll_iff kids h.2
    constructor
    · rintro ⟨r, hr⟩
      obtain ⟨kids', hkids, hf⟩ := visits_node_iff.1 hr
      exact ⟨hasParameters_of_visits h hkids hf, ih.1 ⟨kids', hkids⟩⟩
    · rintro ⟨hself, hall⟩
      obtain ⟨kids', hkids⟩ := ih.2 hall
      obtain ⟨r, hr⟩ := exists_nameParameters h.1.drafted hself hkids
      exact ⟨r, visits_node hkids hr⟩
  | .nothing, _ | .flag _, _ | .number _, _ | .text _, _ | .seq _, _ | .arm _ _, _ | .dent _, _
  | .symbol _, _ | .kind _, _ | .signature _ _ _, _ | .leaf _ _ _, _ =>
    ⟨fun _ _ _ _ h => (by cases h), fun _ => ⟨_, rfl⟩⟩

theorem exists_visitsAll_iff : ∀ ts : List Term, Term.EverywhereAll Sketched ts →
    ((∃ us, VisitsAll nameParameters ts us) ↔ Term.EverywhereAll HasParameters ts)
  | [], _ => ⟨fun _ => trivial, fun _ => ⟨[], visitsAll_nil⟩⟩
  | t :: ts, h => by
    have iht := exists_visits_iff t h.1
    have ihts := exists_visitsAll_iff ts h.2
    constructor
    · rintro ⟨us, hus⟩
      obtain ⟨t', ts', -, ht, hts⟩ := visitsAll_cons_iff.1 hus
      exact ⟨iht.1 ⟨t', ht⟩, ihts.1 ⟨ts', hts⟩⟩
    · rintro ⟨ht, hts⟩
      obtain ⟨t', ht'⟩ := iht.2 ht
      obtain ⟨ts', hts'⟩ := ihts.2 hts
      exact ⟨t' :: ts', visitsAll_cons ht' hts'⟩

end

/-- What can be read has a syntax tree if its parameters can be named. -/
theorem exists_parse_iff {t : Term} {kids : List Term} (h : sketch t = .ok (.phrase .block kids)) :
    (∃ r, parse t = .ok r) ↔ ∃ r, Visits nameParameters (.phrase .block kids) r := by
  rw [parse_eq_bind_sketch, h]
  constructor
  · rintro ⟨r, hr⟩
    obtain ⟨u, hu, hr⟩ := ok_of_bind hr
    obtain rfl := Except.ok.inj hu
    obtain ⟨v, hv, -⟩ := ok_of_bind hr
    exact ⟨v, (Pass.visits_of_run .nameParameters hv).1⟩
  · rintro ⟨r, hr⟩
    obtain ⟨kids', hkids, -⟩ := visits_node_iff.1 hr
    have hnames := Pass.run_block .nameParameters hkids
    have hargs := Pass.run_block .bracketArguments (visitsAll_bracketedAll kids')
    refine ⟨.phrase .block (bracketedAll kids'), ?_⟩
    simp only [bind, Except.bind, hnames, hargs]

/-- **Parameters before arrows.**  Of blocks of statements, such as every text is laid out in, let a tree be
made up to the parameters of functions.  Then the parameters of each function in it are named if and only if
what stands before the arrow is a list of parameters, and they are the names in that list in their order;
otherwise the error is the one that belongs to what stands there.  The blocks have a syntax tree if and only
if there is a list of parameters in each of these places. -/
theorem parameters_before_arrows {kids : List Term} {u : Term}
    (hraw : (Term.phrase .block kids).Everywhere Raw) (hu : sketch (.phrase .block kids) = .ok u) :
    u.Everywhere Decided ∧
      ((∃ r, parse (.phrase .block kids) = .ok r) ↔ u.Everywhere HasParameters) := by
  obtain ⟨kids', rfl, hsketched⟩ := exists_sketch hraw hu
  refine ⟨Everywhere.imp (fun _ => decided_of_sketched) _ (Everywhere.nested _ hsketched), ?_⟩
  rw [exists_parse_iff hu]
  exact exists_visits_iff _ hsketched

/-- The statement `f = ( a , b ) -> ( ( c ) -> a )`, a function that gives back a function. -/
def nestedFunctions : Term :=
  .phrase .expr [.word .id "f", .symbol "=", .symbol "(", .word .id "a", .symbol ",", .word .id "b",
    .symbol ")", .symbol "->", .symbol "(", .symbol "(", .word .id "c", .symbol ")", .symbol "->",
    .word .id "a", .symbol ")"]

/-- What is made of it before the parameters are named. -/
def nestedSketch : Term :=
  .phrase .assign [.word .id "f",
    .phrase .lambda [.phrase .parens [.phrase .comma [.word .id "a", .word .id "b"]],
      .phrase .parens [.phrase .lambda [.phrase .parens [.word .id "c"], .word .id "a"]]]]

theorem parameters_before_arrows_nested :
    (Term.phrase .block [nestedFunctions]).Everywhere Raw ∧
    sketch (.phrase .block [nestedFunctions]) = .ok (.phrase .block [nestedSketch]) ∧
    (Term.phrase .block [nestedSketch]).Everywhere Decided ∧
    ((∃ r, parse (.phrase .block [nestedFunctions]) = .ok r) ↔
      (Term.phrase .block [nestedSketch]).Everywhere HasParameters) := by
  have hraw : (Term.phrase .block [nestedFunctions]).Everywhere Raw :=
    ⟨.block (List.forall_mem_singleton.2 ⟨_, rfl⟩), ⟨.statement _, .word _ _, .sign _, .sign _, .word _ _,
      .sign _, .word _ _, .sign _, .sign _, .sign _, .sign _, .word _ _, .sign _, .sign _, .word _ _,
      .sign _, trivial⟩, trivial⟩
  have hsketch : sketch (.phrase .block [nestedFunctions]) = .ok (.phrase .block [nestedSketch]) := rfl
  exact ⟨hraw, hsketch, parameters_before_arrows hraw hsketch⟩

/-- A function with its parameter in square brackets and one with numbers for parameters. -/
theorem parse_odd_parameters :
    Program.parse "f = [x] -> x\n" = .ok (.phrase .block [.phrase .assign [.word .id "f",
      .phrase .lambda [.phrase .list [.word .id "x"], .word .id "x"]]]) ∧
    Program.parse "f = (1, 2) -> 3\n" = .ok (.phrase .block [.phrase .assign [.word .id "f",
      .phrase .lambda [.phrase .list [.word .id "1", .word .id "2"], .word .int "3"]]]) := by
  have h₁ : Lexer.Cuts "f = [x] -> x".toList [.word .id "f", .symbol "=", .symbol "[", .word .id "x",
      .symbol "]", .symbol "->", .word .id "x"] [] :=
    .step rfl (.step rfl (.step rfl (.step rfl (.step rfl (.step rfl (.single rfl))))))
  have h₂ : Lexer.Cuts "f = (1, 2) -> 3".toList [.word .id "f", .symbol "=", .symbol "(", .word .int "1",
      .symbol ",", .word .int "2", .symbol ")", .symbol "->", .word .int "3"] [] :=
    .step rfl (.step rfl (.step rfl (.step rfl (.step rfl (.step rfl (.step rfl (.step rfl
      (.single rfl))))))))
  have hlines₁ : Text.lines "f = [x] -> x\n".toList = ["f = [x] -> x".toList] := by decide
  have hlines₂ : Text.lines "f = (1, 2) -> 3\n".toList = ["f = (1, 2) -> 3".toList] := by decide
  constructor
  · rw [Program.parse, Lexer.tokens, hlines₁, Lexer.numberedLines_cons 1 (by decide),
      Lexer.line_of_cuts h₁ (by simp)]
    rfl
  · rw [Program.parse, Lexer.tokens, hlines₂, Lexer.numberedLines_cons 1 (by decide),
      Lexer.line_of_cuts h₂ (by simp)]
    rfl

end Tree

end Offside
