import Offside.Proofs.Precedence.Reading
import Offside.Tree.Passes
/-!
# What the passes do to a block of statements

A pass visits the children of a node in order, each after its own children (`Visits`).  It leaves a node
alone unless the node is of one of four kinds (`Pass.apply_eq`), so on most trees only the way down to
those nodes has to be followed.

A statement is a list of tokens, the last of which may be a block.  If the tokens are the yield of an
operator tree that respects the powers, the first passes make the term of that tree of it (`reads_expr`):
no call is implied anywhere in a yield, since an operand in it is followed by a sign that is no opening
bracket (`markCalls_yield`), and the rest is the work of the reader of expressions.
-/

namespace Offside

namespace Tree

open Precedence (OpTree)

/-! ## 1. Visiting

`transform` begins with the root, which it visits before and not after what is below.  It makes no difference
for passes, because the root is a block and they leave a block as it is. -/

variable {f : Term → Except Error Term}

/-- The function makes `t'` of `t`, after it has made what it makes of everything below. -/
def Visits (f : Term → Except Error Term) (t t' : Term) : Prop :=
  (Term.transformBelow f t).bind f = .ok t'

/-- The same for terms in order. -/
def VisitsAll (f : Term → Except Error Term) (ts ts' : List Term) : Prop :=
  Term.transformAll f ts = .ok ts'

theorem visitsAll_nil : VisitsAll f [] [] := rfl

/-- Terms are visited from left to right, and all must succeed. -/
theorem visitsAll_cons_iff {t : Term} {ts us : List Term} :
    VisitsAll f (t :: ts) us ↔ ∃ t' ts', us = t' :: ts' ∧ Visits f t t' ∧ VisitsAll f ts ts' := by
  constructor
  · intro h
    obtain ⟨u, hu, h⟩ := ok_of_bind h
    obtain ⟨t', ht', h⟩ := ok_of_bind h
    obtain ⟨ts', hts', h⟩ := ok_of_bind h
    refine ⟨t', ts', (Except.ok.inj h).symm, ?_, hts'⟩
    unfold Visits
    rw [hu]
    exact ht'
  · rintro ⟨t', ts', rfl, ht, hts⟩
    obtain ⟨u, hu, ht'⟩ := ok_of_bind ht
    unfold VisitsAll at hts ⊢
    simp only [Term.transformAll, hu, ht', hts, bind, Except.bind]
    rfl

theorem visitsAll_cons {t t' : Term} {ts ts' : List Term} (h : Visits f t t')
    (h' : VisitsAll f ts ts') : VisitsAll f (t :: ts) (t' :: ts') :=
  visitsAll_cons_iff.2 ⟨t', ts', rfl, h, h'⟩

theorem visitsAll_one {t t' : Term} (h : Visits f t t') : VisitsAll f [t] [t'] :=
  visitsAll_cons h visitsAll_nil

theorem visitsAll_two {t t' u u' : Term} (h : Visits f t t') (h' : Visits f u u') :
    VisitsAll f [t, u] [t', u'] :=
  visitsAll_cons h (visitsAll_one h')

theorem visitsAll_append {ts ts' us us' : List Term} (h : VisitsAll f ts ts')
    (h' : VisitsAll f us us') : VisitsAll f (ts ++ us) (ts' ++ us') := by
  induction ts generalizing ts' with
  | nil =>
    obtain rfl := Except.ok.inj h
    exact h'
  | cons t ts ih =>
    obtain ⟨t', rs, rfl, ht, hts⟩ := visitsAll_cons_iff.1 h
    exact visitsAll_cons ht (ih hts)

theorem visits_node {k : NodeKind} {s : Site} {kids kids' : List Term} {t : Term}
    (h : VisitsAll f kids kids') (hf : f (.node k s kids') = .ok t) : Visits f (.node k s kids) t := by
  unfold VisitsAll at h
  unfold Visits
  simp only [Term.transformBelow, h, bind, Except.bind]
  exact hf

theorem visits_token {t t' : Term} (ht : t.isNode = false) (hf : f t = .ok t') : Visits f t t' := by
  cases t with
  | node => cases ht
  | _ => exact hf

/-- A whole tree is transformed from its root on. -/
theorem transform_eq_node {t : Term} {k : NodeKind} {s : Site} {kids kids' : List Term}
    (hroot : f t = .ok (.node k s kids)) (h : VisitsAll f kids kids') :
    Term.transform f t = .ok (.node k s kids') := by
  unfold VisitsAll at h
  simp only [Term.transform, hroot, h, bind, Except.bind]
  rfl

/-- The function fails at `t` or below. -/
def Fails (f : Term → Except Error Term) (t : Term) (e : Error) : Prop :=
  (Term.transformBelow f t).bind f = .error e

/-- Of several terms, the first one to fail is the end. -/
theorem transformAll_eq_error {ts ts' : List Term} {t : Term} {e : Error} (h : VisitsAll f ts ts')
    (ht : Fails f t e) (us : List Term) : Term.transformAll f (ts ++ t :: us) = .error e := by
  induction ts generalizing ts' with
  | nil =>
    unfold Fails at ht
    cases hbelow : Term.transformBelow f t with
    | error e' =>
      rw [hbelow] at ht
      obtain rfl : e' = e := Except.error.inj ht
      simp only [List.nil_append, Term.transformAll, hbelow, bind, Except.bind]
    | ok u =>
      rw [hbelow] at ht
      have hu : f u = .error e := ht
      simp only [List.nil_append, Term.transformAll, hbelow, hu, bind, Except.bind]
  | cons t' ts ih =>
    obtain ⟨u', us', rfl, ht', hts⟩ := visitsAll_cons_iff.1 h
    obtain ⟨v, hv, hu'⟩ := ok_of_bind ht'
    simp only [List.cons_append, Term.transformAll, hv, hu', ih hts, bind, Except.bind]

theorem fails_node {k : NodeKind} {s : Site} {kids : List Term} {e : Error}
    (h : Term.transformAll f kids = .error e) : Fails f (.node k s kids) e := by
  unfold Fails
  simp only [Term.transformBelow, h, bind, Except.bind]

theorem transform_eq_error {t : Term} {k : NodeKind} {s : Site} {kids : List Term} {e : Error}
    (hroot : f t = .ok (.node k s kids)) (h : Term.transformAll f kids = .error e) :
    Term.transform f t = .error e := by
  simp only [Term.transform, hroot, h, bind, Except.bind]

/-! ## 2. What a pass leaves alone

Four kinds of nodes are changed by passes, each by one or two of them.  Everything else is visited and put
together again as it was. -/

/-- The kinds of nodes that some pass makes something else of. -/
def reshaped : NodeKind → Bool
  | .phrase .expr | .phrase .lambda | .phrase .call | .phrase .brackets => true
  | _ => false

namespace Pass

theorem apply_node (p : Pass) {k : NodeKind} (hk : reshaped k = false) (s : Site) (kids : List Term) :
    p.apply (.node k s kids) = .ok (.node k s kids) := by
  cases k with
  | phrase q => cases p <;> cases q <;> first | rfl | cases hk
  | action => cases p <;> rfl
  | declared => cases p <;> rfl

theorem apply_token (p : Pass) {t : Term} (ht : t.isNode = false) : p.apply t = .ok t := by
  cases t with
  | node => cases ht
  | _ => cases p <;> rfl

theorem visits_token (p : Pass) {t : Term} (ht : t.isNode = false) : Visits p.apply t t :=
  Tree.visits_token ht (p.apply_token ht)

theorem visits_node (p : Pass) {k : NodeKind} {s : Site} {kids kids' : List Term}
    (hk : reshaped k = false) (h : VisitsAll p.apply kids kids') :
    Visits p.apply (.node k s kids) (.node k s kids') :=
  Tree.visits_node h (p.apply_node hk s kids')

/-- On a whole tree a pass begins with the root, which it leaves alone if it is a block. -/
theorem run_block (p : Pass) {kids kids' : List Term} (h : VisitsAll p.apply kids kids') :
    p.run (.phrase .block kids) = .ok (.phrase .block kids') :=
  transform_eq_node (p.apply_node rfl none kids) h

end Pass

/-! ## 3. Implied calls

`markCalls` looks at a token and at the one before it.  It fails if the one before is a name and the token is
of a kind of which it cannot be told whether it begins an argument; this does not happen in a yield. -/

/-- The token can begin an argument: a number, a name or an opening bracket. -/
def beginsArgument : Term → Bool
  | .leaf (.word .int) _ _ | .leaf (.word .id) _ _ => true
  | .symbol s => s = "("
  | _ => false

/-- A call is implied between a name and a token that can begin an argument. -/
def impliesCall (t u : Term) : Bool := t.isWord .id && beginsArgument u

/-- The sign that is put between a token, if there is one, and the tokens that follow. -/
def callBefore (prev : Option Term) (ts : List Term) : List Term :=
  if prev.any fun p => ts.head?.any (impliesCall p) then [callSign] else []

/-- It can be told from a token whether it begins an argument. -/
def Telling (t : Term) : Prop := startsArgument t = .ok (beginsArgument t)

theorem telling_of_startsArgument {t : Term} {b : Bool} (h : startsArgument t = .ok b) : Telling t := by
  unfold Telling
  unfold startsArgument at h ⊢
  split at h
  · rfl
  · rfl
  · rfl
  · cases h

theorem telling_of_beginsArgument {t : Term} (h : beginsArgument t = true) : Telling t := by
  unfold beginsArgument at h
  split at h
  · rfl
  · rfl
  · rfl
  · cases h

theorem callBefore_cons (prev : Option Term) (t : Term) (ts : List Term) :
    callBefore prev (t :: ts) =
      if prev.any (Term.isWord .id) && beginsArgument t then [callSign] else [] := by
  cases prev <;> rfl

/-- One token.  It has to be telling if there is a name before it, and then the signs depend on the tokens
only. -/
theorem markCalls_cons_eq_ok_iff {prev : Option Term} {t : Term} {ts us : List Term} :
    markCalls prev (t :: ts) = .ok us ↔ (prev.any (Term.isWord .id) = true → Telling t) ∧
      ∃ rest, markCalls (some t) ts = .ok rest ∧ us = callBefore prev (t :: ts) ++ t :: rest := by
  have hput : ∀ (here : Bool) (rest : List Term),
      (if here = true then callSign :: t :: rest else t :: rest) =
        (if here = true then [callSign] else []) ++ t :: rest := by
    intro here rest
    cases here <;> rfl
  rw [markCalls, callBefore_cons]
  cases prev.any (Term.isWord .id) with
  | false =>
    simp only [Bool.false_eq_true, if_false, Bool.false_and, List.nil_append, false_imp_iff, true_and,
      pure_bind]
    constructor
    · intro h
      obtain ⟨rest, hrest, h⟩ := ok_of_bind h
      exact ⟨rest, hrest, (Except.ok.inj h).symm⟩
    · rintro ⟨rest, hrest, rfl⟩
      simp only [hrest, pure, Except.pure, bind, Except.bind]
  | true =>
    simp only [if_true, Bool.true_and, hput, true_imp_iff]
    constructor
    · intro h
      obtain ⟨here, hhere, h⟩ := ok_of_bind h
      obtain ⟨rest, hrest, h⟩ := ok_of_bind h
      have ht := telling_of_startsArgument hhere
      obtain rfl : here = beginsArgument t := Except.ok.inj (hhere.symm.trans ht)
      exact ⟨ht, rest, hrest, (Except.ok.inj h).symm⟩
    · rintro ⟨ht, rest, hrest, rfl⟩
      unfold Telling at ht
      simp only [ht, hrest, pure, Except.pure, bind, Except.bind]

/-- What stands after an operand: nothing, or a sign that is no opening bracket. -/
def AfterOperand : List Term → Prop
  | [] => True
  | t :: _ => ∃ s, t = .symbol s ∧ s ≠ "("

/-- No sign of a call is put into these tokens, where `p` is the token before. -/
def Unmarked (p : Option Term) (ts : List Term) : Prop := markCalls p ts = .ok ts

namespace Unmarked

theorem cons {p : Option Term} (hp : p.any (Term.isWord .id) = false) {t : Term} {ts : List Term}
    (h : Unmarked (some t) ts) : Unmarked p (t :: ts) := by
  unfold Unmarked at h ⊢
  simp only [markCalls, hp, Bool.false_eq_true, if_false, h, pure, Except.pure, bind, Except.bind]

/-- No call is implied before what stands after an operand. -/
theorem after {rest : List Term} (hrest : AfterOperand rest) (h : Unmarked none rest)
    (p : Option Term) : Unmarked p rest := by
  cases rest with
  | nil => exact h
  | cons t ts =>
    obtain ⟨s, rfl, hs⟩ := hrest
    have hsign : startsArgument (.symbol s) = .ok false := by simp [startsArgument, hs]
    unfold Unmarked at h ⊢
    rw [← h]
    simp only [markCalls, hsign]
    cases p.any (Term.isWord .id) <;> rfl

end Unmarked

/-- **The tokens of an operand pass unchanged.**  By induction on the tree, for all that may stand before and
after: an operand is not preceded by a name, and what stands after it is nothing or a sign that is no opening
bracket.  Both hold again of the operands inside. -/
theorem unmarked_yield_append (e : OpTree) {p : Option Term} (hp : p.any (Term.isWord .id) = false)
    {rest : List Term} (hrest : AfterOperand rest) (h : Unmarked none rest) :
    Unmarked p (e.yield ++ rest) := by
  induction e generalizing p rest with
  | atom tok _ => exact .cons hp (h.after hrest _)
  | alone l => exact .cons hp (h.after hrest _)
  | before o arg ih => exact .cons hp (ih rfl hrest h)
  | enclosed b inner ih =>
    simp only [OpTree.yield, List.cons_append, List.append_assoc, List.nil_append]
    have hclosing : b.closing ≠ "(" := by cases b <;> decide
    exact .cons hp (ih rfl ⟨_, rfl, hclosing⟩ (.cons rfl (h.after hrest _)))
  | between o left right ihl ihr =>
    simp only [OpTree.yield, List.cons_append, List.append_assoc]
    have hsign : o.sign ≠ "(" := by cases o <;> decide
    exact ihl hp ⟨_, rfl, hsign⟩ (.cons rfl (ihr rfl hrest h))
  | bareCall left ih =>
    simp only [OpTree.yield, List.cons_append, List.append_assoc, List.nil_append]
    exact ih hp ⟨_, rfl, by decide⟩ (.cons rfl (h.after hrest _))
  | index left inner ihl ihi =>
    simp only [OpTree.yield, List.cons_append, List.append_assoc, List.nil_append]
    exact ihl hp ⟨_, rfl, by decide⟩
      (.cons rfl (ihi rfl ⟨_, rfl, by decide⟩ (.cons rfl (h.after hrest _))))
  | choice left condition other ihl ihc iho =>
    simp only [OpTree.yield, List.cons_append, List.append_assoc]
    exact ihl hp ⟨_, rfl, by decide⟩
      (.cons rfl (ihc rfl ⟨_, rfl, by decide⟩ (.cons rfl (iho rfl hrest h))))

theorem markCalls_yield (e : OpTree) : markCalls none e.yield = .ok e.yield := by
  have h : Unmarked none (e.yield ++ []) := unmarked_yield_append e rfl trivial rfl
  rwa [List.append_nil] at h

theorem insertCalls_yield (e : OpTree) :
    insertCalls (.phrase .expr e.yield) = .ok (.phrase .expr e.yield) := by
  simp only [Term.phrase, insertCalls, markCalls_yield]
  split <;> rfl

/-! ## 4. Reading statements

A statement may contain blocks with statements of their own.  These are visited first, so the powers are
applied to tokens and to blocks that are read already (`reads_expr`). -/

/-- The first passes make `t'` of `t`: only the one that reads expressions changes anything. -/
structure Reads (t t' : Term) : Prop where
  parameters : Visits nameParameters t t
  calls : Visits insertCalls t t
  powers : Visits precedence t t'

/-- The same for terms in order. -/
structure ReadsAll (ts ts' : List Term) : Prop where
  parameters : VisitsAll nameParameters ts ts
  calls : VisitsAll insertCalls ts ts
  powers : VisitsAll precedence ts ts'

namespace ReadsAll

theorem nil : ReadsAll [] [] := ⟨rfl, rfl, rfl⟩

theorem cons {t t' : Term} {ts ts' : List Term} (h : Reads t t') (h' : ReadsAll ts ts') :
    ReadsAll (t :: ts) (t' :: ts') :=
  ⟨visitsAll_cons h.parameters h'.parameters, visitsAll_cons h.calls h'.calls,
    visitsAll_cons h.powers h'.powers⟩

theorem append {ts ts' us us' : List Term} (h : ReadsAll ts ts') (h' : ReadsAll us us') :
    ReadsAll (ts ++ us) (ts' ++ us') :=
  ⟨visitsAll_append h.parameters h'.parameters, visitsAll_append h.calls h'.calls,
    visitsAll_append h.powers h'.powers⟩

/-- Tokens that are no nodes stay as they are. -/
theorem tokens {ts : List Term} (h : ∀ t ∈ ts, t.isNode = false) : ReadsAll ts ts := by
  induction ts with
  | nil => exact nil
  | cons t ts ih =>
    obtain ⟨ht, hts⟩ := List.forall_mem_cons.1 h
    exact cons ⟨Pass.visits_token .nameParameters ht, Pass.visits_token .insertCalls ht,
      Pass.visits_token .precedence ht⟩ (ih hts)

end ReadsAll

theorem reads_block {kids kids' : List Term} (h : ReadsAll kids kids') :
    Reads (.phrase .block kids) (.phrase .block kids') :=
  ⟨Pass.visits_node .nameParameters rfl h.parameters, Pass.visits_node .insertCalls rfl h.calls,
    Pass.visits_node .precedence rfl h.powers⟩

/-- A statement is read as a tree if what has been made of its tokens is the yield of that tree.  The
tokens themselves are a yield too: of the tree with the blocks that have not been read yet. -/
theorem reads_expr {ts : List Term} {raw e : OpTree} (h : ReadsAll ts e.yield) (hraw : raw.yield = ts)
    (he : e.Respects) : Reads (.phrase .expr ts) e.term where
  parameters := visits_node h.parameters rfl
  calls := by
    subst hraw
    exact visits_node h.calls (insertCalls_yield raw)
  powers := visits_node h.powers (OpTree.read_yield he)

/-- The syntax tree of a block, from what the passes make of its children one after the other.  The first and
the fourth are the same pass: it looks for functions, of which there are none in a text before its statements
are read. -/
theorem parse_of_visits {ts us vs ws xs ys : List Term} (h₁ : VisitsAll nameParameters ts us)
    (h₂ : VisitsAll insertCalls us vs) (h₃ : VisitsAll precedence vs ws)
    (h₄ : VisitsAll nameParameters ws xs) (h₅ : VisitsAll bracketArguments xs ys) :
    parse (.phrase .block ts) = .ok (.phrase .block ys) := by
  have h₁ := Pass.run_block .nameParameters h₁
  have h₂ := Pass.run_block .insertCalls h₂
  have h₃ := Pass.run_block .precedence h₃
  have h₄ := Pass.run_block .nameParameters h₄
  have h₅ := Pass.run_block .bracketArguments h₅
  simp only [parse, passes, List.foldlM, h₁, h₂, h₃, h₄, h₅, bind, Except.bind, pure, Except.pure]

/-- The same for statements in which no call is implied. -/
theorem parse_block {ts us vs : List Term} (h : ReadsAll ts us) (hnames : VisitsAll nameParameters us vs)
    (hargs : VisitsAll bracketArguments vs vs) :
    parse (.phrase .block ts) = .ok (.phrase .block vs) :=
  parse_of_visits h.parameters h.calls h.powers hnames hargs

end Tree

end Offside
