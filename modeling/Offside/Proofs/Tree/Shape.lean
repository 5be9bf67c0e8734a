import Mathlib.Data.List.Basic
import Offside.Program
import Offside.Proofs.Layout.Building
import Offside.Proofs.Term.Everywhere
import Offside.Proofs.Token.Lossless
import Offside.Proofs.Tree.Passes
/-!
# The shape of syntax trees

Whatever text is read, its syntax tree has the same shape everywhere (`Shaped`): no statement and no sign
is left in it, the parameters of a function are a list of names, the argument of a call is no bare comma,
and a node has as many children as its kind has fields.

Each pass adds something to that, and the ones after it must not undo it.

* A text is laid out in blocks of statements, and the statements consist of tokens and blocks (`Raw`).  The
  first two passes change only which tokens there are.
* Reading the statements leaves nodes and leaves only, with the right number of children (`Drafted`).
  What is read is an operator tree, so it is enough to look at the nodes that such trees denote.
* Then the parameters of functions are named (`Named`), and last the arguments of calls are enclosed
  (`Finished`).

A pass visits a node after its children.  So it is enough to know what it makes of one node if everything
below has its new shape already (`Makes`).
-/

namespace Offside

namespace Tree

open Precedence (OpTree)
open Term (Everywhere everywhere_node_iff everywhere_token_iff)

/-! ## 1. What is visited

A pass may make anything of a node, so what it makes of a tree is known only if it is known for single nodes.
`Makes` asks for that: the children may be taken to have the new shape, and the node itself has the old one. -/

variable {f : Term → Except Error Term}

/-- A node is visited after its children. -/
theorem visits_node_iff {k : NodeKind} {s : Site} {kids : List Term} {t : Term} :
    Visits f (.node k s kids) t ↔ ∃ kids', VisitsAll f kids kids' ∧ f (.node k s kids') = .ok t := by
  constructor
  · intro h
    obtain ⟨u, hu, ht⟩ := ok_of_bind h
    obtain ⟨kids', hkids, hu⟩ := ok_of_bind hu
    obtain rfl := Except.ok.inj hu
    exact ⟨kids', hkids, ht⟩
  · rintro ⟨kids', hkids, ht⟩
    exact visits_node hkids ht

theorem visits_token_iff {t t' : Term} (ht : t.isNode = false) : Visits f t t' ↔ f t = .ok t' := by
  cases t with
  | node => cases ht
  | _ => exact Iff.rfl

theorem VisitsAll.length_eq {ts us : List Term} (h : VisitsAll f ts us) : us.length = ts.length := by
  induction ts generalizing us with
  | nil =>
    obtain rfl := Except.ok.inj h
    rfl
  | cons t ts ih =>
    obtain ⟨t', ts', rfl, -, hts⟩ := visitsAll_cons_iff.1 h
    rw [List.length_cons, List.length_cons, ih hts]

/-- Everything in the result comes from something that was visited. -/
theorem VisitsAll.exists_of_mem {ts us : List Term} (h : VisitsAll f ts us) {u : Term} (hu : u ∈ us) :
    ∃ t ∈ ts, Visits f t u := by
  induction ts generalizing us with
  | nil =>
    obtain rfl := Except.ok.inj h
    cases hu
  | cons t ts ih =>
    obtain ⟨t', ts', rfl, ht, hts⟩ := visitsAll_cons_iff.1 h
    rcases List.mem_cons.1 hu with rfl | hu
    · exact ⟨t, List.mem_cons_self, ht⟩
    · obtain ⟨v, hv, hvu⟩ := ih hts hu
      exact ⟨v, List.mem_cons_of_mem _ hv, hvu⟩

/-- Tokens that the function leaves alone stay as they are. -/
theorem VisitsAll.eq_of_tokens {ts us : List Term} (h : VisitsAll f ts us)
    (ht : ∀ t ∈ ts, t.isNode = false ∧ f t = .ok t) : us = ts := by
  induction ts generalizing us with
  | nil => exact (Except.ok.inj h).symm
  | cons t ts ih =>
    obtain ⟨t', ts', rfl, hvisit, hts⟩ := visitsAll_cons_iff.1 h
    obtain ⟨⟨hnode, hf⟩, hrest⟩ := List.forall_mem_cons.1 ht
    rw [visits_token_iff hnode, hf] at hvisit
    rw [ih hts hrest, Except.ok.inj hvisit]

/-- Of a term with `P` the function makes one with `R`, and of a node only after it has done so with the
children. -/
structure Makes (f : Term → Except Error Term) (P R : Term → Prop) : Prop where
  token : ∀ {t t' : Term}, t.isNode = false → P t → f t = .ok t' → R t'
  node : ∀ {k : NodeKind} {s : Site} {kids kids' : List Term} {t' : Term}, P (.node k s kids) →
    VisitsAll f kids kids' → (∀ u ∈ kids', R u) → f (.node k s kids') = .ok t' → R t'

mutual

/-- **From single nodes to trees.**  By induction on the tree, since a node is visited after its children. -/
theorem Makes.of_visits {P R : Term → Prop} (hf : Makes f P R) :
    ∀ (t : Term) {t' : Term}, t.Everywhere P → Visits f t t' → R t'
  | .node k s kids, t', h, hv => by
    obtain ⟨kids', hkids, ht'⟩ := visits_node_iff.1 hv
    exact hf.node h.1 hkids (hf.of_visitsAll kids h.2 hkids) ht'
  | .nothing, _, h, hv | .flag _, _, h, hv | .number _, _, h, hv | .text _, _, h, hv
  | .seq _, _, h, hv | .arm _ _, _, h, hv | .dent _, _, h, hv | .symbol _, _, h, hv
  | .kind _, _, h, hv | .signature _ _ _, _, h, hv | .leaf _ _ _, _, h, hv => hf.token rfl h hv

theorem Makes.of_visitsAll {P R : Term → Prop} (hf : Makes f P R) :
    ∀ (ts : List Term) {us : List Term}, Term.EverywhereAll P ts → VisitsAll f ts us → ∀ u ∈ us, R u
  | [], us, _, hv => by
    obtain rfl := Except.ok.inj hv
    exact List.forall_mem_nil _
  | t :: ts, us, h, hv => by
    obtain ⟨t', ts', rfl, ht, hts⟩ := visitsAll_cons_iff.1 hv
    exact List.forall_mem_cons.2 ⟨hf.of_visits t h.1 ht, hf.of_visitsAll ts h.2 hts⟩

end

theorem Pass.eq_of_token (p : Pass) {t t' : Term} (ht : t.isNode = false) (h : p.apply t = .ok t') :
    t' = t :=
  (Except.ok.inj ((p.apply_token ht).symm.trans h)).symm

theorem Pass.eq_of_node (p : Pass) {k : NodeKind} {s : Site} {kids : List Term} {t : Term}
    (hk : reshaped k = false) (h : p.apply (.node k s kids) = .ok t) : t = .node k s kids :=
  (Except.ok.inj ((p.apply_node hk s kids).symm.trans h)).symm

/-- A pass leaves a block as it is, so that it makes no difference that it begins with the root. -/
theorem Pass.exists_of_run (p : Pass) {kids : List Term} {t : Term}
    (h : p.run (.phrase .block kids) = .ok t) :
    ∃ kids', VisitsAll p.apply kids kids' ∧ t = .phrase .block kids' := by
  have hroot : p.apply (.phrase .block kids) = .ok (.phrase .block kids) := p.apply_node rfl none kids
  rw [Pass.run, Term.transform, hroot] at h
  simp only [Term.phrase, bind, Except.bind] at h
  obtain ⟨kids', hkids, h⟩ := ok_of_bind h
  exact ⟨kids', hkids, (Except.ok.inj h).symm⟩

theorem Pass.visits_of_run (p : Pass) {kids : List Term} {t : Term}
    (h : p.run (.phrase .block kids) = .ok t) :
    Visits p.apply (.phrase .block kids) t ∧ ∃ kids', t = .phrase .block kids' := by
  obtain ⟨kids', hkids, rfl⟩ := p.exists_of_run h
  exact ⟨p.visits_node rfl hkids, kids', rfl⟩

/-- What the passes have made of the children of a block, one after the other. -/
theorem exists_visits_of_parse {ts : List Term} {t : Term} (h : parse (.phrase .block ts) = .ok t) :
    ∃ us vs ws xs ys, VisitsAll nameParameters ts us ∧ VisitsAll insertCalls us vs ∧
      VisitsAll precedence vs ws ∧ VisitsAll nameParameters ws xs ∧ VisitsAll bracketArguments xs ys ∧
      t = .phrase .block ys := by
  obtain ⟨b₁, h₁, h⟩ := ok_of_bind h
  obtain ⟨b₂, h₂, h⟩ := ok_of_bind h
  obtain ⟨b₃, h₃, h⟩ := ok_of_bind h
  obtain ⟨b₄, h₄, h⟩ := ok_of_bind h
  obtain ⟨b₅, h₅, h⟩ := ok_of_bind h
  obtain rfl := Except.ok.inj h
  obtain ⟨us, v₁, rfl⟩ := Pass.exists_of_run _ h₁
  obtain ⟨vs, v₂, rfl⟩ := Pass.exists_of_run _ h₂
  obtain ⟨ws, v₃, rfl⟩ := Pass.exists_of_run _ h₃
  obtain ⟨xs, v₄, rfl⟩ := Pass.exists_of_run _ h₄
  obtain ⟨ys, v₅, rfl⟩ := Pass.exists_of_run _ h₅
  exact ⟨us, vs, ws, xs, ys, v₁, v₂, v₃, v₄, v₅, rfl⟩

/-! ## 2. Laid-out text

What a text is laid out in is made of its tokens by putting them into statements and these into blocks
(`Layout.Closed`).  The passes before the reading keep this: one of them finds no functions yet, and the other
puts in signs. -/

/-- What a text is laid out in: tokens, statements of such, and blocks of statements. -/
inductive Raw : Term → Prop where
  | word (w : Word) (s : String) : Raw (.word w s)
  | decimal (s : String) : Raw (.text s)
  | sign (s : String) : Raw (.symbol s)
  | statement (kids : List Term) : Raw (.phrase .expr kids)
  | block {kids : List Term} (h : ∀ u ∈ kids, ∃ ts, u = .phrase .expr ts) : Raw (.phrase .block kids)

theorem raw_of_isToken {t : Term} (h : Lexer.IsToken t) : t.Everywhere Raw := by
  cases h with
  | decimal => exact Raw.decimal _
  | sign => exact Raw.sign _
  | _ => exact Raw.word _ _

theorem closed_raw : Layout.Closed (Everywhere Raw) := by
  refine Layout.closed_everywhere .statement fun sts => .block fun u hu => ?_
  obtain ⟨ts, -, rfl⟩ := List.mem_map.1 hu
  exact ⟨ts, rfl⟩

/-- What a text is laid out in is a block. -/
theorem exists_tree_eq_block {source : String} {ts : List Term} (h : Lexer.tokens source = .ok ts) :
    ∃ kids, Layout.tree ts = .phrase .block kids ∧ (Term.phrase .block kids).Everywhere Raw := by
  obtain ⟨rows, -, rfl⟩ := Lexer.numberedLines_eq_cut h
  have hblock : Layout.BlockOf (Everywhere Raw) (Layout.tree (rows.flatMap Lexer.Row.cut)) := by
    refine Layout.blockOf_tree closed_raw fun t ht hplain => ?_
    obtain ⟨r, -, ht⟩ := List.mem_flatMap.1 ht
    rcases List.mem_cons.1 ht with rfl | ht
    · cases hplain
    · exact raw_of_isToken (r.spaced.isToken t ht)
  have hraw := hblock.holds closed_raw
  obtain ⟨sts, -, hsts⟩ := hblock
  rw [hsts] at hraw
  exact ⟨_, hsts, hraw⟩

/-- A pass that makes statements of statements keeps the layout. -/
theorem Pass.makes_raw (p : Pass)
    (hp : ∀ {kids : List Term} {t : Term}, p.apply (.phrase .expr kids) = .ok t →
      ∃ kids', t = .phrase .expr kids' ∧ ((∀ u ∈ kids, u.Everywhere Raw) → ∀ u ∈ kids', u.Everywhere Raw)) :
    Makes p.apply Raw (Everywhere Raw) where
  token := by
    intro t t' ht hraw hf
    obtain rfl := p.eq_of_token ht hf
    exact (everywhere_token_iff ht).2 hraw
  node := by
    intro k s kids kids' t' hraw hkids hall hf
    cases hraw with
    | statement =>
      obtain ⟨us, rfl, hus⟩ := hp hf
      exact everywhere_node_iff.2 ⟨.statement us, hus hall⟩
    | block hstatements =>
      obtain rfl := p.eq_of_node rfl hf
      refine everywhere_node_iff.2 ⟨.block fun u hu => ?_, hall⟩
      obtain ⟨e, he, hvisit⟩ := hkids.exists_of_mem hu
      obtain ⟨ts, rfl⟩ := hstatements e he
      obtain ⟨ts', -, hu⟩ := visits_node_iff.1 hvisit
      obtain ⟨us, rfl, -⟩ := hp hu
      exact ⟨us, rfl⟩

/-- The signs of calls are all that is put in. -/
theorem markCalls_mem {prev : Option Term} {ts us : List Term} (h : markCalls prev ts = .ok us) :
    ∀ u ∈ us, u = callSign ∨ u ∈ ts := by
  induction ts generalizing prev us with
  | nil =>
    obtain rfl := Except.ok.inj h
    exact List.forall_mem_nil _
  | cons t ts ih =>
    obtain ⟨-, rest, hrest, rfl⟩ := markCalls_cons_eq_ok_iff.1 h
    have hold : ∀ u ∈ t :: rest, u = callSign ∨ u ∈ t :: ts :=
      List.forall_mem_cons.2 ⟨.inr List.mem_cons_self, fun u hu =>
        (ih hrest u hu).imp_right (List.mem_cons_of_mem t)⟩
    refine List.forall_mem_append.2 ⟨fun u hu => .inl ?_, hold⟩
    rw [callBefore] at hu
    split at hu
    · exact List.mem_singleton.1 hu
    · cases hu

theorem makes_nameParameters_raw : Makes Pass.nameParameters.apply Raw (Everywhere Raw) :=
  Pass.makes_raw .nameParameters fun h => ⟨_, (Except.ok.inj h).symm, fun h => h⟩

/-- Putting in signs leaves statements that consist of tokens and blocks. -/
theorem makes_insertCalls_raw : Makes Pass.insertCalls.apply Raw (Everywhere Raw) := by
  refine Pass.makes_raw .insertCalls fun {kids t} h => ?_
  simp only [Pass.apply, insertCalls, Term.phrase] at h
  split at h
  · exact ⟨kids, (Except.ok.inj h).symm, fun h => h⟩
  · obtain ⟨us, hus, h⟩ := ok_of_bind h
    refine ⟨us, (Except.ok.inj h).symm, fun hkids u hu => ?_⟩
    rcases markCalls_mem hus u hu with rfl | hu
    · exact Raw.sign _
    · exact hkids u hu

/-! ## 3. Statements are read

A statement is read into the term of an operator tree.  Its nodes come from signs, so they have the number of
children that the sign gives them; its leaves are tokens or blocks, which have been read before. -/

/-- A kind with fields has a child for each. -/
def Admits : Fields → Nat → Prop
  | .named _ rest, n => n = rest.length + 1
  | _, _ => True

/-- A node of this kind may have this many children, once statements have been read. -/
structure Takes (p : Phrase) (n : Nat) : Prop where
  ne_expr : p ≠ .expr
  fields : Admits p.fields n
  comma : p = .comma → 0 < n

theorem takes_of_ne {p : Phrase} {n : Nat} (hexpr : p ≠ .expr) (hcomma : p ≠ .comma)
    (hfields : Admits p.fields n) : Takes p n :=
  ⟨hexpr, hfields, fun h => absurd h hcomma⟩

/-- What statements are read into. -/
inductive Drafted : Term → Prop where
  | word (w : Word) (s : String) : Drafted (.word w s)
  | phrase {p : Phrase} {kids : List Term} (h : Takes p kids.length) : Drafted (.phrase p kids)

theorem everywhere_commaItems {P : Term → Prop} {t : Term} (h : t.Everywhere P) :
    ∀ u ∈ Precedence.commaItems t, u.Everywhere P := by
  unfold Precedence.commaItems
  split
  · exact (everywhere_node_iff.1 h).2
  · exact List.forall_mem_singleton.2 h

theorem takes_opener (o : Precedence.Opener) : Takes o.phrase 1 := by
  cases o <;> exact takes_of_ne (by decide) (by decide) (by first | rfl | trivial)

theorem takes_bracket (b : Precedence.Bracket) : Takes b.phrase 1 := by
  cases b <;> exact takes_of_ne (by decide) (by decide) (by first | rfl | trivial)

theorem takes_joiner (o : Precedence.Joiner) : Takes o.phrase 2 := by
  cases o <;> exact ⟨by decide, by first | rfl | trivial, fun _ => Nat.two_pos⟩

/-- There is a sign that is read into phrases of this kind. -/
def isSpoken : Phrase → Bool
  | .node | .list | .unary | .binary | .expr | .block => false
  | _ => true

/-- The nodes of a term are what trees denote that are more than an atom, down to the atoms.  So to know
something of every node it is enough to know it of the root of every tree. -/
theorem everywhere_of_roots {P : Term → Prop}
    (hroot : ∀ e : OpTree, e.Respects → (∀ tok htok, e ≠ .atom tok htok) → P e.term)
    (e : OpTree) (he : e.Respects) (h : ∀ u ∈ e.yield, Precedence.isAtom u = true → u.Everywhere P) :
    e.term.Everywhere P := by
  have node : ∀ {e : OpTree} {p : Phrase} {kids : List Term}, e.Respects →
      (∀ tok htok, e ≠ .atom tok htok) → e.term = .phrase p kids → (∀ u ∈ kids, u.Everywhere P) →
      e.term.Everywhere P := by
    intro e p kids he hne hterm hkids
    have hself := hroot e he hne
    rw [hterm] at hself ⊢
    exact everywhere_node_iff.2 ⟨hself, hkids⟩
  induction e with
  | atom tok htok => exact h tok List.mem_cons_self htok
  | alone l => exact hroot (.alone l) he (by simp)
  | before o arg ih =>
    have harg := ih he.2 fun u hu => h u (by simp [OpTree.yield, hu])
    exact node he (by simp) rfl (List.forall_mem_singleton.2 harg)
  | enclosed b inner ih =>
    have hinner := ih he.2 fun u hu => h u (by simp [OpTree.yield, hu])
    exact node he (by simp) rfl (List.forall_mem_singleton.2 hinner)
  | between o left right ihl ihr =>
    have hleft := ihl he.2.2.1 fun u hu => h u (by simp [OpTree.yield, hu])
    have hright := ihr he.2.2.2 fun u hu => h u (by simp [OpTree.yield, hu])
    by_cases ho : o = .comma
    · subst ho
      refine node he (by simp) rfl ?_
      exact List.forall_mem_append.2 ⟨everywhere_commaItems hleft, List.forall_mem_singleton.2 hright⟩
    · exact node he (by simp) (OpTree.term_between ho left right) (by simp [hleft, hright])
  | bareCall left ih =>
    have hleft := ih he.2 fun u hu => h u (by simp [OpTree.yield, hu])
    exact node he (by simp) rfl (List.forall_mem_singleton.2 hleft)
  | index left inner ihl ihi =>
    have hleft := ihl he.2.2.1 fun u hu => h u (by simp [OpTree.yield, hu])
    have hinner := ihi he.2.2.2 fun u hu => h u (by simp [OpTree.yield, hu])
    exact node he (by simp) rfl (by simp [hleft, hinner])
  | choice left condition other ihl ihc iho =>
    have hleft := ihl he.2.2.2.1 fun u hu => h u (by simp [OpTree.yield, hu])
    have hcondition := ihc he.2.2.2.2.1 fun u hu => h u (by simp [OpTree.yield, hu])
    have hother := iho he.2.2.2.2.2 fun u hu => h u (by simp [OpTree.yield, hu])
    exact node he (by simp) rfl (by simp [hleft, hcondition, hother])

/-- The term of an operator tree consists of nodes for its signs, down to its operands. -/
theorem everywhere_term {P : Term → Prop} (hword : ∀ l : Precedence.Lone, P (.word l.word l.sign))
    (hphrase : ∀ (p : Phrase) (kids : List Term), isSpoken p = true → Takes p kids.length →
      P (.phrase p kids))
    (e : OpTree) (he : e.Respects) (h : ∀ u ∈ e.yield, Precedence.isAtom u = true → u.Everywhere P) :
    e.term.Everywhere P := by
  refine everywhere_of_roots (fun e _ hne => ?_) e he h
  cases e with
  | atom tok htok => exact absurd rfl (hne tok htok)
  | alone l => exact hword l
  | before o arg => exact hphrase _ _ (by cases o <;> rfl) (takes_opener o)
  | enclosed b inner => exact hphrase _ _ (by cases b <;> rfl) (takes_bracket b)
  | between o left right =>
    by_cases ho : o = .comma
    · subst ho
      exact hphrase _ _ rfl ⟨by decide, trivial, fun _ => by simp⟩
    · rw [OpTree.term_between ho]
      exact hphrase _ _ (by cases o <;> rfl) (takes_joiner o)
  | bareCall left => exact hphrase _ _ rfl (takes_of_ne (by decide) (by decide) rfl)
  | index left inner => exact hphrase _ _ rfl (takes_of_ne (by decide) (by decide) rfl)
  | choice left condition other => exact hphrase _ _ rfl (takes_of_ne (by decide) (by decide) rfl)

theorem drafted_phrase {p : Phrase} {kids : List Term} (hp : Takes p kids.length)
    (h : ∀ u ∈ kids, u.Everywhere Drafted) : (Term.phrase p kids).Everywhere Drafted :=
  everywhere_node_iff.2 ⟨.phrase hp, h⟩

theorem drafted_term (e : OpTree) (he : e.Respects)
    (h : ∀ u ∈ e.yield, Precedence.isAtom u = true → u.Everywhere Drafted) :
    e.term.Everywhere Drafted :=
  everywhere_term (fun _ => .word _ _) (fun _ _ _ hp => .phrase hp) e he h

/-- The term is a leaf or a node, no bare sign or number. -/
def isOperand : Term → Bool
  | .leaf _ _ _ | .node _ _ _ => true
  | _ => false

theorem isOperand_of_isAtom {t : Term} (h : Precedence.isAtom t = true) : isOperand t = true := by
  cases t with
  | leaf => rfl
  | node => rfl
  | _ => cases h

theorem isOperand_term (e : OpTree) : isOperand e.term = true := by
  cases e with
  | atom tok htok => exact isOperand_of_isAtom htok
  | between o => cases o <;> rfl
  | _ => rfl

/-- Reading one statement.  A sign by itself is not changed by the pass and is not drafted; this is why only
operands are spoken of here.  It does not matter, since a child of a block is a statement and what is made of
a statement is an operand. -/
theorem makes_precedence :
    Makes Pass.precedence.apply Raw fun t => isOperand t = true → t.Everywhere Drafted where
  token := by
    intro t t' ht hraw hf hoperand
    obtain rfl := Pass.eq_of_token .precedence ht hf
    cases hraw with
    | word w s => exact Drafted.word w s
    | decimal => cases hoperand
    | sign => cases hoperand
    | statement => cases ht
    | block => cases ht
  node := by
    intro k s kids kids' t' hraw hkids hall hf hoperand
    cases hraw with
    | statement =>
      obtain ⟨e, he, rfl, rfl⟩ := Precedence.read_sound hf
      exact drafted_term e he fun u hu hatom => hall u hu (isOperand_of_isAtom hatom)
    | block hstatements =>
      obtain rfl := Pass.eq_of_node .precedence rfl hf
      refine drafted_phrase (takes_of_ne (by decide) (by decide) trivial) fun u hu => hall u hu ?_
      -- what is made of a statement is no bare token
      obtain ⟨e, he, hvisit⟩ := hkids.exists_of_mem hu
      obtain ⟨ts, rfl⟩ := hstatements e he
      obtain ⟨ts', -, hread⟩ := visits_node_iff.1 hvisit
      obtain ⟨e, -, -, rfl⟩ := Precedence.read_sound hread
      exact isOperand_term e

/-! ## 4. Parameters are named

A function comes with whatever stands before its arrow.  If it passes, this is replaced by a list of names. -/

/-- The same once parameters are named: those of a function are a list of names, of which there is one at
least. -/
inductive Named : Term → Prop where
  | word (w : Word) (s : String) : Named (.word w s)
  | lambda {names : List String} (h : names ≠ []) (body : Term) :
      Named (.phrase .lambda [.phrase .list (names.map (.word .id)), body])
  | phrase {p : Phrase} {kids : List Term} (h : Takes p kids.length) (hp : p ≠ .lambda) :
      Named (.phrase p kids)

/-- What becomes of a parameter: only a leaf has a name. -/
theorem exists_name {t u : Term} (ht : Named t)
    (h : (do return .leaf (.word .id) none (← t.value) : Except Error Term) = .ok u) :
    ∃ name, u = .word .id name := by
  obtain ⟨v, hv, h⟩ := ok_of_bind h
  obtain rfl := Except.ok.inj h
  cases ht with
  | word w name =>
    obtain rfl := Except.ok.inj hv
    exact ⟨name, rfl⟩
  | lambda => cases hv
  | phrase => cases hv

/-- Parameters are named one by one, and none gets lost. -/
theorem exists_names_of_mapM {ts us : List Term} (hts : ∀ t ∈ ts, Named t)
    (h : ts.mapM (fun t => (do return .leaf (.word .id) none (← t.value) : Except Error Term)) =
      .ok us) :
    ∃ names : List String, us = names.map (.word .id) ∧ names.length = ts.length := by
  induction ts generalizing us with
  | nil =>
    obtain rfl := Except.ok.inj h
    exact ⟨[], rfl, rfl⟩
  | cons t ts ih =>
    obtain ⟨ht, hts⟩ := List.forall_mem_cons.1 hts
    rw [List.mapM_cons] at h
    obtain ⟨u, hu, h⟩ := ok_of_bind h
    obtain ⟨us, hus, h⟩ := ok_of_bind h
    obtain rfl := Except.ok.inj h
    obtain ⟨name, rfl⟩ := exists_name ht hu
    obtain ⟨names, rfl, hlength⟩ := ih hts hus
    exact ⟨name :: names, rfl, congrArg Nat.succ hlength⟩

/-- Only nodes have members here, and these are their children. -/
theorem named_members {t : Term} (ht : t.Everywhere Named) {ms : List Term}
    (h : t.members = .ok ms) : ∀ m ∈ ms, m.Everywhere Named := by
  cases ht.self with
  | word => cases h
  | lambda =>
    obtain rfl := Except.ok.inj h
    exact (everywhere_node_iff.1 ht).2
  | phrase =>
    obtain rfl := Except.ok.inj h
    exact (everywhere_node_iff.1 ht).2

/-- Parameters that are named are one name or a comma of names, so there is one at least: a comma has an item.
-/
theorem exists_parameters {args t : Term} (hargs : args.Everywhere Named)
    (h : parameters args = .ok t) :
    ∃ names : List String, names ≠ [] ∧ t = .phrase .list (names.map (.word .id)) := by
  unfold parameters at h
  obtain ⟨ms, hms, h⟩ := ok_of_bind h
  have hnamed := named_members hargs hms
  split at h
  · rename_i s kids
    obtain ⟨us, hus, h⟩ := ok_of_bind h
    obtain rfl := Except.ok.inj h
    obtain ⟨hcomma, hkids⟩ := everywhere_node_iff.1 (List.forall_mem_singleton.1 hnamed)
    obtain ⟨names, rfl, hlength⟩ := exists_names_of_mapM (fun t ht => (hkids t ht).self) hus
    refine ⟨names, ?_, rfl⟩
    cases hcomma with
    | phrase hp _ => exact List.ne_nil_of_length_pos (hlength ▸ hp.comma rfl)
  · obtain ⟨u, hu, h⟩ := ok_of_bind h
    obtain rfl := Except.ok.inj h
    obtain ⟨name, rfl⟩ := exists_name (List.forall_mem_singleton.1 hnamed).self hu
    exact ⟨[name], List.cons_ne_nil _ _, rfl⟩
  · cases h
  · cases h

theorem named_list (names : List String) :
    (Term.phrase .list (names.map (.word .id))).Everywhere Named := by
  refine everywhere_node_iff.2 ⟨.phrase (takes_of_ne (by decide) (by decide) trivial) (by decide), fun u hu => ?_⟩
  obtain ⟨name, -, rfl⟩ := List.mem_map.1 hu
  exact Named.word .id name

theorem nameParameters_phrase {p : Phrase} (hp : p ≠ .lambda) (kids : List Term) :
    nameParameters (.phrase p kids) = .ok (.phrase p kids) := by
  cases p <;> first | rfl | exact absurd rfl hp

/-- Naming the parameters of one node.  Below it they are named already, so what stands before the arrow may
be looked at as it is. -/
theorem makes_nameParameters_named : Makes Pass.nameParameters.apply Drafted (Everywhere Named) where
  token := by
    intro t t' ht hdrafted hf
    obtain rfl := Pass.eq_of_token .nameParameters ht hf
    cases hdrafted with
    | word w s => exact Named.word w s
    | phrase => cases ht
  node := by
    intro k s kids kids' t' hdrafted hkids hall hf
    cases hdrafted with
    | @phrase p _ hp =>
      rw [← hkids.length_eq] at hp
      by_cases hlambda : p = .lambda
      · subst hlambda
        obtain ⟨args, body, rfl⟩ := List.length_eq_two.1 hp.fields
        obtain ⟨u, hu, hf⟩ := ok_of_bind hf
        obtain rfl := Except.ok.inj hf
        obtain ⟨hargs, hbody⟩ : args.Everywhere Named ∧ body.Everywhere Named := by simpa using hall
        obtain ⟨names, hne, rfl⟩ := exists_parameters hargs hu
        exact everywhere_node_iff.2 ⟨.lambda hne body, by simp [named_list names, hbody]⟩
      · obtain rfl := Except.ok.inj ((nameParameters_phrase hlambda kids').symm.trans hf)
        exact everywhere_node_iff.2 ⟨.phrase hp hlambda, hall⟩

/-! ## 5. Arguments are enclosed

A comma that is the argument of a call is put into brackets.  This never fails, so what it makes can be
written down (`bracketed`), and it is all that the last pass does. -/

/-- What a syntax tree consists of in the end: no argument of a call is a bare comma. -/
inductive Finished : Term → Prop where
  | word (w : Word) (s : String) : Finished (.word w s)
  | lambda {names : List String} (h : names ≠ []) (body : Term) :
      Finished (.phrase .lambda [.phrase .list (names.map (.word .id)), body])
  | call (left : Term) {right : Term} (h : right.isPhrase .comma = false) :
      Finished (.phrase .call [left, right])
  | phrase {p : Phrase} {kids : List Term} (h : Takes p kids.length) (hp : p ≠ .lambda)
      (hp' : p ≠ .call) : Finished (.phrase p kids)

theorem bracketArguments_phrase {p : Phrase} (hp : p ≠ .call) (kids : List Term) :
    bracketArguments (.phrase p kids) = .ok (.phrase p kids) := by
  cases p <;> first | rfl | exact absurd rfl hp

/-- A list of names has no calls in it. -/
theorem eq_of_visits_list {names : List String} {t : Term}
    (h : Visits Pass.bracketArguments.apply (.phrase .list (names.map (.word .id))) t) :
    t = .phrase .list (names.map (.word .id)) := by
  obtain ⟨us, hus, ht⟩ := visits_node_iff.1 h
  have hnames : us = names.map (.word .id) := by
    refine hus.eq_of_tokens fun u hu => ?_
    obtain ⟨name, -, rfl⟩ := List.mem_map.1 hu
    exact ⟨rfl, rfl⟩
  subst hnames
  exact Pass.eq_of_node .bracketArguments rfl ht

/-- Enclosing the argument of one node.  A list of parameters has no calls in it and stays as it is. -/
theorem makes_bracketArguments : Makes Pass.bracketArguments.apply Named (Everywhere Finished) where
  token := by
    intro t t' ht hnamed hf
    obtain rfl := Pass.eq_of_token .bracketArguments ht hf
    cases hnamed with
    | word w s => exact Finished.word w s
    | lambda => cases ht
    | phrase => cases ht
  node := by
    intro k s kids kids' t' hnamed hkids hall hf
    cases hnamed with
    | lambda hne body =>
      obtain ⟨list, us, rfl, hlist, hus⟩ := visitsAll_cons_iff.1 hkids
      obtain ⟨body', us', rfl, -, hnil⟩ := visitsAll_cons_iff.1 hus
      obtain rfl := Except.ok.inj hnil
      obtain rfl := eq_of_visits_list hlist
      obtain rfl := Except.ok.inj hf
      exact everywhere_node_iff.2 ⟨.lambda hne body', hall⟩
    | @phrase p _ hp hlambda =>
      rw [← hkids.length_eq] at hp
      by_cases hcall : p = .call
      · subst hcall
        obtain ⟨left, right, rfl⟩ := List.length_eq_two.1 hp.fields
        obtain ⟨hleft, hright⟩ : left.Everywhere Finished ∧ right.Everywhere Finished := by
          simpa using hall
        simp only [Pass.apply, bracketArguments] at hf
        split at hf
        · obtain rfl := Except.ok.inj hf
          have hbrackets : (Term.phrase .brackets [right]).Everywhere Finished :=
            everywhere_node_iff.2 ⟨.phrase (takes_of_ne (by decide) (by decide) rfl) (by decide)
              (by decide), List.forall_mem_singleton.2 hright⟩
          exact everywhere_node_iff.2 ⟨.call left rfl, by simp [hleft, hbrackets]⟩
        · rename_i hcomma
          obtain rfl := Except.ok.inj hf
          exact everywhere_node_iff.2 ⟨.call left (Bool.eq_false_iff.2 hcomma), hall⟩
      · obtain rfl := Except.ok.inj ((bracketArguments_phrase hcall kids').symm.trans hf)
        exact everywhere_node_iff.2 ⟨.phrase hp hlambda hcall, hall⟩

mutual

/-- The tree with a comma that is the argument of a call enclosed in brackets. -/
def bracketed : Term → Term
  | .node (.phrase .call) s [left, right] =>
    if right.isPhrase .comma then
      .phrase .call [bracketed left, .phrase .brackets [bracketed right]]
    else .node (.phrase .call) s [bracketed left, bracketed right]
  | .node k s kids => .node k s (bracketedAll kids)
  | t => t

def bracketedAll : List Term → List Term
  | [] => []
  | t :: ts => bracketed t :: bracketedAll ts

end

theorem isPhrase_bracketed (p : Phrase) (t : Term) : (bracketed t).isPhrase p = t.isPhrase p := by
  fun_cases bracketed t with
  | case1 => rfl
  | case2 => rfl
  | case3 k => cases k <;> rfl
  | case4 => rfl

theorem length_bracketedAll (ts : List Term) : (bracketedAll ts).length = ts.length := by
  induction ts with
  | nil => rfl
  | cons t ts ih => rw [bracketedAll, List.length_cons, List.length_cons, ih]

mutual

/-- The last pass never fails. -/
theorem visits_bracketed (t : Term) : Visits Pass.bracketArguments.apply t (bracketed t) := by
  fun_cases bracketed t with
  | case1 s left right hcomma =>
    refine visits_node (visitsAll_two (visits_bracketed left) (visits_bracketed right)) ?_
    exact if_pos ((isPhrase_bracketed .comma right).trans hcomma)
  | case2 s left right hcomma =>
    refine visits_node (visitsAll_two (visits_bracketed left) (visits_bracketed right)) ?_
    exact if_neg (mt (isPhrase_bracketed .comma right).symm.trans hcomma)
  | case3 k s kids hk =>
    refine visits_node (visitsAll_bracketedAll kids) ?_
    simp only [Pass.apply, bracketArguments]
    split
    · rename_i heq
      obtain ⟨rfl, -, hpair⟩ := Term.node.inj heq
      have hlength := length_bracketedAll kids
      rw [hpair] at hlength
      obtain ⟨left, right, rfl⟩ := List.length_eq_two.1 hlength.symm
      exact (hk left right rfl rfl).elim
    · rfl
  | case4 t _ ht =>
    refine Pass.visits_token .bracketArguments ?_
    cases t with
    | node k s kids => exact (ht k s kids rfl).elim
    | _ => rfl

theorem visitsAll_bracketedAll : ∀ ts : List Term,
    VisitsAll Pass.bracketArguments.apply ts (bracketedAll ts)
  | [] => visitsAll_nil
  | t :: ts => visitsAll_cons (visits_bracketed t) (visitsAll_bracketedAll ts)

end

/-! ## 6. Whole programs

The steps are put together in the order of the passes. -/

/-- The syntax tree of a text before the arguments of calls are enclosed. -/
def draft (source : String) : Except Error Term := do
  let t ← Pass.nameParameters.run (Layout.tree (← Lexer.tokens source))
  passes.dropLast.foldlM (fun t p => p.run t) t

/-- All passes but the last, in order. -/
theorem named_draft {source : String} {u : Term} (h : draft source = .ok u) :
    ∃ kids, u = .phrase .block kids ∧ u.Everywhere Named := by
  obtain ⟨ts, hts, h⟩ := ok_of_bind h
  obtain ⟨kids, htree, hraw⟩ := exists_tree_eq_block hts
  rw [htree] at h
  obtain ⟨b₁, h₁, h⟩ := ok_of_bind h
  obtain ⟨b₂, h₂, h⟩ := ok_of_bind h
  obtain ⟨b₃, h₃, h⟩ := ok_of_bind h
  obtain ⟨b₄, h₄, h⟩ := ok_of_bind h
  obtain rfl := Except.ok.inj h
  obtain ⟨v₁, kids₁, rfl⟩ := Pass.visits_of_run _ h₁
  obtain ⟨v₂, kids₂, rfl⟩ := Pass.visits_of_run _ h₂
  obtain ⟨v₃, kids₃, rfl⟩ := Pass.visits_of_run _ h₃
  obtain ⟨v₄, kids₄, rfl⟩ := Pass.visits_of_run _ h₄
  have hraw₁ := makes_nameParameters_raw.of_visits _ hraw v₁
  have hraw₂ := makes_insertCalls_raw.of_visits _ hraw₁ v₂
  have hdrafted := makes_precedence.of_visits _ hraw₂ v₃ rfl
  exact ⟨kids₄, rfl, makes_nameParameters_named.of_visits _ hdrafted v₄⟩

theorem parse_eq_bind_draft (source : String) :
    Program.parse source = draft source >>= Pass.bracketArguments.run := by
  simp only [Program.parse, draft, parse, passes, List.dropLast, List.foldlM, bind_assoc, bind_pure]

theorem finished_parse {source : String} {t : Term} (h : Program.parse source = .ok t) :
    t.Everywhere Finished := by
  rw [parse_eq_bind_draft] at h
  obtain ⟨u, hu, h⟩ := ok_of_bind h
  obtain ⟨kids, rfl, hnamed⟩ := named_draft hu
  obtain ⟨hvisits, -⟩ := Pass.visits_of_run _ h
  exact makes_bracketArguments.of_visits _ hnamed hvisits

/-- What is to hold of every part of a syntax tree. -/
structure Shaped (t : Term) : Prop where
  noStatement : t.isPhrase .expr = false
  noSign : ∀ s, t ≠ .symbol s
  parameters : ∀ s kids, t = .node (.phrase .lambda) s kids →
    ∃ (names : List String) (body : Term), names ≠ [] ∧
      kids = [.phrase .list (names.map (.word .id)), body]
  arguments : ∀ s left right, t = .node (.phrase .call) s [left, right] →
    right.isPhrase .comma = false
  fields : ∀ k s kids, t = .node k s kids → Admits k.fields kids.length

/-- What is finished has the shape that is asked for, kind by kind. -/
theorem Finished.shaped {t : Term} (h : Finished t) : Shaped t := by
  cases h with
  | word w s => exact ⟨rfl, nofun, nofun, nofun, nofun⟩
  | @lambda names hne body =>
    refine ⟨rfl, nofun, ?_, nofun, ?_⟩
    · rintro _ _ ⟨⟩
      exact ⟨names, body, hne, rfl⟩
    · rintro _ _ _ ⟨⟩
      rfl
  | call left hright =>
    refine ⟨rfl, nofun, nofun, ?_, ?_⟩
    · rintro _ _ _ ⟨⟩
      exact hright
    · rintro _ _ _ ⟨⟩
      rfl
  | phrase hp hlambda hcall =>
    refine ⟨?_, nofun, ?_, ?_, ?_⟩
    · exact decide_eq_false hp.ne_expr.symm
    · rintro _ _ ⟨⟩
      exact absurd rfl hlambda
    · rintro _ _ _ ⟨⟩
      exact absurd rfl hcall
    · rintro _ _ _ ⟨⟩
      exact hp.fields

/-- **The shape of a program.**  In the syntax tree of a text no statement and no sign is left, the
parameters of a function are a list of one name or more, no argument of a call is a bare comma, and a node
has a child for each field of its kind.  A comma that was the argument of a call stands in brackets, and
this is all that sets the tree apart from the draft of it. -/
theorem parse_shaped {source : String} {t : Term} (h : Program.parse source = .ok t) :
    t.Everywhere Shaped ∧ ∃ u, draft source = .ok u ∧ t = bracketed u := by
  rw [parse_eq_bind_draft] at h
  obtain ⟨u, hu, h⟩ := ok_of_bind h
  obtain ⟨kids, rfl, hnamed⟩ := named_draft hu
  obtain ⟨hvisits, -⟩ := Pass.visits_of_run _ h
  refine ⟨Everywhere.imp (fun _ => Finished.shaped) t (makes_bracketArguments.of_visits _ hnamed hvisits),
    _, hu, ?_⟩
  exact Except.ok.inj (hvisits.symm.trans (visits_bracketed _))

/-- A function of two parameters and a call of it. -/
def sampleTree : Term :=
  .phrase .block [
    .phrase .assign [.word .id "g",
      .phrase .lambda [.phrase .list [.word .id "a", .word .id "b"], .word .id "a"]],
    .phrase .print [.phrase .call [.word .id "g",
      .phrase .brackets [.phrase .comma [.word .int "1", .word .int "2"]]]]]

theorem parse_shaped_sample :
    Program.parse "g = (a, b) -> a\np g 1, 2" = .ok sampleTree ∧ sampleTree.Everywhere Shaped ∧
      ∃ u, draft "g = (a, b) -> a\np g 1, 2" = .ok u ∧ sampleTree = bracketed u := by
  have h₁ : Lexer.Cuts "g = (a, b) -> a".toList [.word .id "g", .symbol "=", .symbol "(", .word .id "a",
      .symbol ",", .word .id "b", .symbol ")", .symbol "->", .word .id "a"] [] :=
    .step rfl (.step rfl (.step rfl (.step rfl (.step rfl (.step rfl (.step rfl (.step rfl
      (.single rfl))))))))
  have h₂ : Lexer.Cuts "p g 1, 2".toList [.symbol "p ", .word .id "g", .word .int "1", .symbol ",",
      .word .int "2"] [] :=
    .step rfl (.step rfl (.step rfl (.step rfl (.single rfl))))
  have hlines : Text.lines "g = (a, b) -> a\np g 1, 2".toList =
      ["g = (a, b) -> a".toList, "p g 1, 2".toList] := by decide
  have h : Program.parse "g = (a, b) -> a\np g 1, 2" = .ok sampleTree := by
    rw [Program.parse, Lexer.tokens, hlines, Lexer.numberedLines_cons 1 (by decide),
      Lexer.line_of_cuts h₁ (by simp), Lexer.numberedLines_cons 2 (by decide),
      Lexer.line_of_cuts h₂ (by simp)]
    rfl
  exact ⟨h, parse_shaped h⟩

end Tree

end Offside
