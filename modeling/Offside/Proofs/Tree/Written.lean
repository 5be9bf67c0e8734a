import Offside.Proofs.Tree.Shape
/-!
# What syntax trees are made of

There are more kinds of words and phrases than a text is ever read into.  In the syntax tree of a text
every leaf is a word that can be run once it is lowered, and every node is a block or comes from a sign,
apart from the lists of parameters, which stand nowhere but in functions (`Written`).

Words come from tokens and from the signs that stand for themselves, and no pass makes other ones
(`Known`).  Phrases come from reading the statements (`Voiced`).  After that only parameters are new.
-/

namespace Offside

namespace Tree

open Precedence (OpTree)
open Term (Everywhere everywhere_node_iff everywhere_token_iff)

/-! ## 1. Words

A pass that changes a node makes new nodes of its children and adds signs, names and the words of signs that
stand for themselves.  All of these words can be run, so `Known` is kept by every pass. -/

/-- A leaf is a word that becomes a datum. -/
def Known : Term → Prop
  | .leaf k _ _ => ∃ w, k = .word w ∧ (datumOf w).isSome = true
  | _ => True

/-- The tokens of a text are words that become data, decimals, and signs. -/
theorem known_of_isToken {t : Term} (h : Lexer.IsToken t) : t.Everywhere Known := by
  cases h with
  | @enclosed mark w hmark cs =>
    unfold Lexer.marked? at hmark
    split at hmark
    all_goals cases hmark
    all_goals exact ⟨_, rfl, rfl⟩
  | decimal => trivial
  | sign => trivial
  | _ => exact ⟨_, rfl, rfl⟩

theorem closed_known : Layout.Closed (Everywhere Known) :=
  Layout.closed_everywhere (fun _ => trivial) fun _ => trivial

theorem known_tree {source : String} {ts : List Term} (h : Lexer.tokens source = .ok ts) :
    (Layout.tree ts).Everywhere Known := by
  obtain ⟨rows, -, rfl⟩ := Lexer.numberedLines_eq_cut h
  refine (Layout.blockOf_tree closed_known fun t ht hplain => ?_).holds closed_known
  obtain ⟨r, -, ht⟩ := List.mem_flatMap.1 ht
  rcases List.mem_cons.1 ht with rfl | ht
  · cases hplain
  · exact known_of_isToken (r.spaced.isToken t ht)

theorem known_node {k : NodeKind} {s : Site} {kids : List Term} (h : ∀ u ∈ kids, u.Everywhere Known) :
    (Term.node k s kids).Everywhere Known :=
  everywhere_node_iff.2 ⟨trivial, h⟩

/-- It is enough to look at the nodes that a pass changes. -/
theorem Pass.makes_known (p : Pass)
    (hp : ∀ {k : NodeKind} {s : Site} {kids : List Term} {t : Term}, reshaped k = true →
      (∀ u ∈ kids, u.Everywhere Known) → p.apply (.node k s kids) = .ok t → t.Everywhere Known) :
    Makes p.apply Known (Everywhere Known) where
  token := by
    intro t t' ht hknown hf
    obtain rfl := p.eq_of_token ht hf
    exact (everywhere_token_iff ht).2 hknown
  node := by
    intro k s kids kids' t' _ _ hall hf
    cases hk : reshaped k with
    | true => exact hp hk hall hf
    | false =>
      obtain rfl := p.eq_of_node hk hf
      exact known_node hall

/-- Parameters are leaves, whatever they are made of. -/
def IsName (t : Term) : Prop := ∃ v, t = .leaf (.word .id) none v

theorem isName_of_value {t u : Term}
    (h : (do return .leaf (.word .id) none (← t.value) : Except Error Term) = .ok u) : IsName u := by
  obtain ⟨v, -, h⟩ := ok_of_bind h
  exact ⟨v, (Except.ok.inj h).symm⟩

/-- Parameters are named one by one. -/
theorem isName_of_mapM {ts us : List Term}
    (h : ts.mapM (fun t => (do return .leaf (.word .id) none (← t.value) : Except Error Term)) =
      .ok us) : (∀ u ∈ us, IsName u) ∧ us.length = ts.length := by
  induction ts generalizing us with
  | nil =>
    obtain rfl := Except.ok.inj h
    exact ⟨List.forall_mem_nil _, rfl⟩
  | cons t ts ih =>
    rw [List.mapM_cons] at h
    obtain ⟨u, hu, h⟩ := ok_of_bind h
    obtain ⟨us, hus, h⟩ := ok_of_bind h
    obtain rfl := Except.ok.inj h
    obtain ⟨hnames, hlength⟩ := ih hus
    exact ⟨List.forall_mem_cons.2 ⟨isName_of_value hu, hnames⟩, congrArg Nat.succ hlength⟩

/-- There are no parameters only where there is a comma of nothing. -/
theorem exists_list_of_parameters {args t : Term} (h : parameters args = .ok t) :
    ∃ names, t = .phrase .list names ∧ (∀ u ∈ names, IsName u) ∧
      (names = [] → ∃ s, args.members = .ok [.node (.phrase .comma) s []]) := by
  unfold parameters at h
  obtain ⟨ms, hms, h⟩ := ok_of_bind h
  split at h
  · rename_i s kids
    obtain ⟨us, hus, h⟩ := ok_of_bind h
    obtain ⟨hnames, hlength⟩ := isName_of_mapM hus
    refine ⟨us, (Except.ok.inj h).symm, hnames, ?_⟩
    rintro rfl
    obtain rfl := List.length_eq_zero_iff.1 hlength.symm
    exact ⟨s, hms⟩
  · obtain ⟨u, hu, h⟩ := ok_of_bind h
    refine ⟨[u], (Except.ok.inj h).symm, List.forall_mem_singleton.2 (isName_of_value hu), ?_⟩
    intro hnil
    cases hnil
  · cases h
  · cases h

theorem IsName.known {t : Term} (h : IsName t) : t.Everywhere Known := by
  obtain ⟨v, rfl⟩ := h
  exact ⟨.id, rfl, rfl⟩

/-- New names are words that can be run. -/
theorem makes_nameParameters_known : Makes Pass.nameParameters.apply Known (Everywhere Known) := by
  refine Pass.makes_known .nameParameters fun {k s kids t} _ hkids hf => ?_
  simp only [Pass.apply, nameParameters] at hf
  split at hf
  · rename_i heq
    obtain ⟨rfl, rfl, rfl⟩ := Term.node.inj heq
    obtain ⟨-, hbody⟩ := List.forall_mem_cons.1 hkids
    obtain ⟨list, hlist, hf⟩ := ok_of_bind hf
    obtain rfl := Except.ok.inj hf
    obtain ⟨names, rfl, hnames, -⟩ := exists_list_of_parameters hlist
    have hlist : (Term.phrase .list names).Everywhere Known :=
      known_node fun u hu => (hnames u hu).known
    exact known_node (List.forall_mem_cons.2 ⟨hlist, hbody⟩)
  · obtain rfl := Except.ok.inj hf
    exact known_node hkids

/-- The signs of calls are no words. -/
theorem makes_insertCalls_known : Makes Pass.insertCalls.apply Known (Everywhere Known) := by
  refine Pass.makes_known .insertCalls fun {k s kids t} _ hkids hf => ?_
  simp only [Pass.apply, insertCalls] at hf
  split at hf
  · rename_i heq
    obtain ⟨rfl, rfl, rfl⟩ := Term.node.inj heq
    split at hf
    · obtain rfl := Except.ok.inj hf
      exact known_node hkids
    · obtain ⟨us, hus, hf⟩ := ok_of_bind hf
      obtain rfl := Except.ok.inj hf
      refine known_node fun u hu => ?_
      rcases markCalls_mem hus u hu with rfl | hu
      · trivial
      · exact hkids u hu
  · obtain rfl := Except.ok.inj hf
    exact known_node hkids

/-- The only words that reading makes are those of the signs that stand alone. -/
theorem makes_precedence_known : Makes Pass.precedence.apply Known (Everywhere Known) := by
  refine Pass.makes_known .precedence fun {k s kids t} _ hkids hf => ?_
  simp only [Pass.apply, precedence] at hf
  split at hf
  · rename_i heq
    obtain ⟨rfl, rfl, rfl⟩ := Term.node.inj heq
    obtain ⟨e, he, rfl, rfl⟩ := Precedence.read_sound hf
    refine everywhere_term (fun l => ?_) (fun _ _ _ _ => trivial) e he fun u hu _ => hkids u hu
    cases l <;> exact ⟨_, rfl, rfl⟩
  · obtain rfl := Except.ok.inj hf
    exact known_node hkids

/-! ## 2. Phrases

`Voiced` is about nodes by themselves, like `Known`.  It is broken by the naming of parameters, which makes
lists; that these stand in functions only cannot be said of a node by itself. -/

/-- A node is a block or comes from a sign, and all else comes from a token. -/
def Voiced : Term → Prop
  | .node k _ kids => ∃ p, k = .phrase p ∧ (p = .block ∨ isSpoken p = true) ∧
      (p = .lambda → kids.length = 2) ∧ (p = .comma → 0 < kids.length)
  | .leaf _ _ _ | .text _ | .symbol _ => True
  | _ => False

/-- Reading makes nodes for signs, with the children that the sign gives them. -/
theorem makes_precedence_voiced : Makes Pass.precedence.apply Raw (Everywhere Voiced) where
  token := by
    intro t t' ht hraw hf
    obtain rfl := Pass.eq_of_token .precedence ht hf
    cases hraw with
    | word => trivial
    | decimal => trivial
    | sign => trivial
    | _ => cases ht
  node := by
    intro k s kids kids' t' hraw _ hall hf
    cases hraw with
    | statement =>
      obtain ⟨e, he, rfl, rfl⟩ := Precedence.read_sound hf
      refine everywhere_term (fun _ => trivial) (fun p kids hp htakes => ?_) e he fun u hu _ => hall u hu
      refine ⟨p, rfl, .inr hp, ?_, htakes.comma⟩
      rintro rfl
      exact htakes.fields
    | block =>
      obtain rfl := Pass.eq_of_node .precedence rfl hf
      exact everywhere_node_iff.2 ⟨⟨.block, rfl, .inl rfl, by simp, by simp⟩, hall⟩

/-! ## 3. Syntax trees

So `Written` is defined along the tree, with a case for functions that contains their list of parameters. -/

/-- What a text is read into. -/
inductive Written : Term → Prop where
  | word {w : Word} (hw : (datumOf w).isSome = true) (s : Site) (v : Term) :
      Written (.leaf (.word w) s v)
  | decimal (s : String) : Written (.text s)
  | sign (s : String) : Written (.symbol s)
  | lambda (s : Site) {names : List Term} (hne : names ≠ []) (hnames : ∀ u ∈ names, IsName u)
      {body : Term} (h : Written body) :
      Written (.node (.phrase .lambda) s [.phrase .list names, body])
  | phrase {p : Phrase} (hp : p = .block ∨ isSpoken p = true) (hlambda : p ≠ .lambda) (s : Site)
      {kids : List Term} (hcomma : p = .comma → 0 < kids.length) (h : ∀ u ∈ kids, Written u) :
      Written (.node (.phrase p) s kids)

/-- There is no comma of nothing in a text. -/
theorem Written.ne_bare_comma {args : Term} (h : Written args) (s : Site) :
    args.members ≠ .ok [.node (.phrase .comma) s []] := by
  intro hms
  cases h with
  | word => cases hms
  | sign => cases hms
  | decimal text =>
    have hmem : Term.node (.phrase .comma) s [] ∈ text.toList.map fun c => Term.text (String.ofList [c]) := by
      rw [Except.ok.inj hms]
      exact List.mem_cons_self
    obtain ⟨c, -, hc⟩ := List.mem_map.1 hmem
    cases hc
  | lambda => cases hms
  | phrase _ _ _ _ hkids =>
    obtain rfl := Except.ok.inj hms
    cases hkids _ List.mem_cons_self with
    | phrase _ _ _ hcomma => exact Nat.lt_irrefl 0 (hcomma rfl)

/-- Naming the parameters of one node.  The lists that it makes are in their place, right below a function,
and none is empty. -/
theorem makes_nameParameters_written :
    Makes Pass.nameParameters.apply (fun t => Known t ∧ Voiced t) Written where
  token := by
    intro t t' ht hsaid hf
    obtain rfl := Pass.eq_of_token .nameParameters ht hf
    cases t' with
    | node => cases ht
    | leaf k s v =>
      obtain ⟨⟨w, rfl, hw⟩, -⟩ := hsaid
      exact .word hw s v
    | text s => exact .decimal s
    | symbol s => exact .sign s
    | _ => exact hsaid.2.elim
  node := by
    intro k s kids kids' t' hsaid hkids hall hf
    obtain ⟨-, p, rfl, hp, hpair, hcomma⟩ := hsaid
    rw [← hkids.length_eq] at hpair hcomma
    by_cases hlambda : p = .lambda
    · subst hlambda
      obtain ⟨args, body, rfl⟩ := List.length_eq_two.1 (hpair rfl)
      obtain ⟨list, hlist, hf⟩ := ok_of_bind hf
      obtain rfl := Except.ok.inj hf
      obtain ⟨names, rfl, hnames, hnil⟩ := exists_list_of_parameters hlist
      have hne : names ≠ [] := by
        intro hnames
        obtain ⟨s, hms⟩ := hnil hnames
        exact (hall args (by simp)).ne_bare_comma s hms
      exact .lambda s hne hnames (hall body (by simp))
    · have hsame : t' = .node (.phrase p) s kids' := by
        simp only [Pass.apply, nameParameters] at hf
        split at hf
        · rename_i heq
          exact absurd (NodeKind.phrase.inj (Term.node.inj heq).1) hlambda
        · exact (Except.ok.inj hf).symm
      rw [hsame]
      exact .phrase hp hlambda s hcomma hall

/-- Names are left alone when arguments are enclosed. -/
theorem eq_of_visitsAll_names {names us : List Term} (hnames : ∀ u ∈ names, IsName u)
    (h : VisitsAll Pass.bracketArguments.apply names us) : us = names := by
  refine h.eq_of_tokens fun u hu => ?_
  obtain ⟨v, rfl⟩ := hnames u hu
  exact ⟨rfl, rfl⟩

/-- The last pass puts brackets around a comma that is an argument, and all else stays as it is.  By induction
on the tree. -/
theorem Written.bracketArguments {t : Term} (h : Written t) :
    ∀ {u : Term}, Visits Pass.bracketArguments.apply t u → Written u := by
  induction h with
  | word hw s v =>
    intro u hu
    obtain rfl := Except.ok.inj hu
    exact .word hw s v
  | decimal s =>
    intro u hu
    obtain rfl := Except.ok.inj hu
    exact .decimal s
  | sign s =>
    intro u hu
    obtain rfl := Except.ok.inj hu
    exact .sign s
  | lambda s hne hnames _ ih =>
    intro u hu
    obtain ⟨kids, hkids, happly⟩ := visits_node_iff.1 hu
    obtain ⟨list, us, rfl, hlist, hus⟩ := visitsAll_cons_iff.1 hkids
    obtain ⟨body, us, rfl, hbody, hnil⟩ := visitsAll_cons_iff.1 hus
    obtain rfl := Except.ok.inj hnil
    obtain ⟨names, hall, hkeep⟩ := visits_node_iff.1 hlist
    obtain rfl := eq_of_visitsAll_names hnames hall
    obtain rfl := Except.ok.inj hkeep
    obtain rfl := Except.ok.inj happly
    exact .lambda s hne hnames (ih hbody)
  | phrase hp hlambda s hcomma _ ih =>
    intro u hu
    obtain ⟨kids, hkids, hu⟩ := visits_node_iff.1 hu
    rw [← hkids.length_eq] at hcomma
    have hall : ∀ v ∈ kids, Written v := by
      intro v hv
      obtain ⟨t, ht, htv⟩ := hkids.exists_of_mem hv
      exact ih t ht htv
    simp only [Pass.apply, Tree.bracketArguments] at hu
    split at hu
    · rename_i heq
      obtain ⟨hk, rfl, rfl⟩ := Term.node.inj heq
      split at hu
      · obtain rfl := Except.ok.inj hu
        have hright := hall _ (List.mem_cons_of_mem _ List.mem_cons_self)
        have hbrackets : Written (.phrase .brackets _) :=
          .phrase (.inr rfl) (by decide) none (by simp) (List.forall_mem_singleton.2 hright)
        refine .phrase (.inr rfl) (by decide) none (by simp) (List.forall_mem_cons.2 ?_)
        exact ⟨hall _ List.mem_cons_self, List.forall_mem_singleton.2 hbrackets⟩
      · obtain rfl := Except.ok.inj hu
        exact .phrase (.inr rfl) (by decide) _ (by simp) hall
    · obtain rfl := Except.ok.inj hu
      exact .phrase hp hlambda s hcomma hall

/-- **What programs are made of.**  Up to the reading of statements each node is looked at by itself.  The
naming of parameters makes of that what is said along the tree, and the last pass keeps it. -/
theorem written_parse {source : String} {t : Term} (h : Program.parse source = .ok t) :
    Written t ∧ ∃ kids, t = .phrase .block kids := by
  obtain ⟨ts, hts, h⟩ := ok_of_bind h
  obtain ⟨kids, htree, hraw⟩ := exists_tree_eq_block hts
  have hknown := known_tree hts
  rw [htree] at h hknown
  obtain ⟨b₁, h₁, h⟩ := ok_of_bind h
  obtain ⟨b₂, h₂, h⟩ := ok_of_bind h
  obtain ⟨b₃, h₃, h⟩ := ok_of_bind h
  obtain ⟨b₄, h₄, h⟩ := ok_of_bind h
  obtain ⟨b₅, h₅, h⟩ := ok_of_bind h
  obtain rfl := Except.ok.inj h
  obtain ⟨v₁, kids₁, rfl⟩ := Pass.visits_of_run _ h₁
  obtain ⟨v₂, kids₂, rfl⟩ := Pass.visits_of_run _ h₂
  obtain ⟨v₃, kids₃, rfl⟩ := Pass.visits_of_run _ h₃
  obtain ⟨v₄, kids₄, rfl⟩ := Pass.visits_of_run _ h₄
  obtain ⟨v₅, kids₅, rfl⟩ := Pass.visits_of_run _ h₅
  have hraw₂ := makes_insertCalls_raw.of_visits _ (makes_nameParameters_raw.of_visits _ hraw v₁) v₂
  have hknown₂ := makes_insertCalls_known.of_visits _ (makes_nameParameters_known.of_visits _ hknown v₁) v₂
  have hknown₃ := makes_precedence_known.of_visits _ hknown₂ v₃
  have hvoiced₃ := makes_precedence_voiced.of_visits _ hraw₂ v₃
  have hwritten := makes_nameParameters_written.of_visits _ (Everywhere.and _ hknown₃ hvoiced₃) v₄
  exact ⟨hwritten.bracketArguments v₅, kids₅, rfl⟩

/-- A block is lowered like every other node, although it is the root. -/
theorem visits_of_lower {kids : List Term} {u : Term} (h : lower (.phrase .block kids) = .ok u) :
    Visits lowerNode (.phrase .block kids) u := by
  have hroot : ∀ ts, lowerNode (.phrase .block ts) = .ok (.action .block ts) := fun _ => rfl
  rw [lower, Term.transform, hroot] at h
  simp only [Term.action, bind, Except.bind] at h
  obtain ⟨us, hus, h⟩ := ok_of_bind h
  obtain rfl := Except.ok.inj h
  exact visits_node hus (hroot us)

end Tree

end Offside
