import Offside.Proofs.Comment.Growth
/-!
# Reading a tree with one comment more

The passes over a laid-out text and the lowering of the syntax tree are stable: of a tree that has grown
each of them makes a tree that has grown (`Stable`).  What a pass does to one node is all that has to be
looked at, and most passes do not look into blocks.

Reading a statement is where the block finds its place.  The sign before it becomes the node above it:
after `->`, `=>` or `=` the block stands to be evaluated, after `match` it does not.
-/

namespace Offside

namespace Precedence

/-! ## 1. The last operand

A block can only be the last element of a line, so in the tree of a statement it is the last operand, at the
end of a chain of signs that each have their last operand at the end.  To put another block in its place
changes no binding power, and so the tree with the other block is a reading of the statement with the other
block. -/

namespace OpTree

/-- The tree with another token as its last operand. -/
def withLast (tok : Term) (h : isAtom tok = true) : OpTree → OpTree
  | atom _ _ => atom tok h
  | before o arg => before o (arg.withLast tok h)
  | between o left right => between o left (right.withLast tok h)
  | choice left condition other => choice left condition (other.withLast tok h)
  | e => e

variable {tok : Term} (h : isAtom tok = true)

theorem leftSpine_withLast (e : OpTree) : (e.withLast tok h).leftSpine = e.leftSpine := by
  cases e <;> rfl

theorem above_withLast (p : Int) (e : OpTree) : (e.withLast tok h).Above p ↔ e.Above p := by
  rw [Above, leftSpine_withLast, Above]

/-- Whether a tree respects the powers is decided by the signs in it, and those are the same. -/
theorem respects_withLast (e : OpTree) : (e.withLast tok h).Respects ↔ e.Respects := by
  induction e with
  | before o arg ih => simp only [withLast, Respects, above_withLast, ih]
  | between o left right _ ih => simp only [withLast, Respects, above_withLast, ih]
  | choice left condition other _ _ ih => simp only [withLast, Respects, above_withLast, ih]
  | _ => rfl

theorem yield_ne_nil (e : OpTree) : e.yield ≠ [] := by
  cases e <;> simp [yield]

/-- The last token of a list belongs to its last part. -/
theorem exists_of_append_eq_concat (as : List Term) {bs ts : List Term} {x : Term} (hbs : bs ≠ [])
    (h : as ++ bs = ts ++ [x]) : ∃ us, ts = as ++ us ∧ bs = us ++ [x] := by
  obtain ⟨us, b, rfl⟩ : ∃ us b, bs = us ++ [b] := ⟨_, _, (List.dropLast_concat_getLast hbs).symm⟩
  rw [← List.append_assoc] at h
  obtain ⟨rfl, hb⟩ := List.append_inj' h rfl
  exact ⟨us, rfl, by rw [hb]⟩

theorem ne_of_append_sign (as : List Term) {ts : List Term} {x : Term} {s : String} (hx : x.isNode = true) :
    as ++ [.symbol s] ≠ ts ++ [x] := by
  intro h
  obtain ⟨-, hs⟩ := List.append_inj' h rfl
  cases hs
  cases hx

/-- **A node at the end.**  A yield that ends with a node has it as the last operand of its tree, and what
holds of that operand passes up along the signs that have their last operand at the end. -/
theorem induction_last {x : Term} (hx : x.isNode = true) {motive : OpTree → List Term → Prop}
    (atom : ∀ hatom : isAtom x = true, motive (.atom x hatom) [])
    (before : ∀ (o : Opener) (arg : OpTree) (ts : List Term), arg.yield = ts ++ [x] → motive arg ts →
      motive (.before o arg) (.symbol o.sign :: ts))
    (between : ∀ (o : Joiner) (left right : OpTree) (ts : List Term), right.yield = ts ++ [x] →
      motive right ts → motive (.between o left right) (left.yield ++ .symbol o.sign :: ts))
    (choice : ∀ (left condition other : OpTree) (ts : List Term), other.yield = ts ++ [x] →
      motive other ts → motive (.choice left condition other)
        (left.yield ++ .symbol "if" :: (condition.yield ++ .symbol "else" :: ts)))
    (e : OpTree) : ∀ ts : List Term, e.yield = ts ++ [x] → motive e ts := by
  induction e with
  | atom tok hatom =>
    intro ts h
    have hconcat : [] ++ [tok] = ts ++ [x] := h
    obtain ⟨rfl, htok⟩ := List.append_inj' hconcat rfl
    cases htok
    exact atom hatom
  | alone l => exact fun ts h => (ne_of_append_sign [] hx h).elim
  | before o arg ih =>
    intro ts h
    obtain ⟨us, rfl, harg⟩ := exists_of_append_eq_concat [.symbol o.sign] arg.yield_ne_nil h
    exact before o arg us harg (ih us harg)
  | enclosed b inner => exact fun ts h => (ne_of_append_sign (.symbol b.opening :: inner.yield) hx h).elim
  | between o left right _ ih =>
    intro ts h
    rw [yield, List.append_cons] at h
    obtain ⟨us, rfl, hright⟩ := exists_of_append_eq_concat _ right.yield_ne_nil h
    rw [← List.append_cons]
    exact between o left right us hright (ih us hright)
  | bareCall left => exact fun ts h => (ne_of_append_sign _ hx h).elim
  | index left inner =>
    intro ts h
    rw [yield, ← List.cons_append, ← List.append_assoc] at h
    exact (ne_of_append_sign _ hx h).elim
  | choice left condition other _ _ ih =>
    intro ts h
    have hsplit : (left.yield ++ .symbol "if" :: condition.yield ++ [.symbol "else"]) ++ other.yield =
        ts ++ [x] := by
      simpa [yield] using h
    obtain ⟨us, rfl, hother⟩ := exists_of_append_eq_concat _ other.yield_ne_nil hsplit
    have hts : left.yield ++ .symbol "if" :: condition.yield ++ [.symbol "else"] ++ us =
        left.yield ++ .symbol "if" :: (condition.yield ++ .symbol "else" :: us) := by simp
    rw [hts]
    exact choice left condition other us hother (ih us hother)

theorem isAtom_last (e : OpTree) {ts : List Term} {x : Term} (hx : x.isNode = true)
    (hy : e.yield = ts ++ [x]) : isAtom x = true :=
  induction_last hx (motive := fun _ _ => isAtom x = true) id (fun _ _ _ _ ih => ih)
    (fun _ _ _ _ _ ih => ih) (fun _ _ _ _ _ ih => ih) e ts hy

theorem yield_withLast (e : OpTree) {ts : List Term} {x : Term} (hx : x.isNode = true)
    (hy : e.yield = ts ++ [x]) : (e.withLast tok h).yield = ts ++ [tok] := by
  refine induction_last hx (motive := fun e ts => (e.withLast tok h).yield = ts ++ [tok])
    (fun _ => rfl) (fun o arg ts _ ih => ?_) (fun o left right ts _ ih => ?_)
    (fun left condition other ts _ ih => ?_) e ts hy
  · simp only [withLast, yield, ih, List.cons_append]
  · simp only [withLast, yield, ih, List.append_assoc, List.cons_append]
  · simp only [withLast, yield, ih, List.append_assoc, List.cons_append]

end OpTree

end Precedence

namespace Comment

open Precedence (OpTree Opener Joiner isAtom commaItems)
open Offside.Tree (Pass Visits VisitsAll markCalls startsArgument callSign)

/-! ## 2. Statements

The sign in front of the block decides.  If it stands for a node that evaluates its last operand
(`SignsHost`), that node has grown by a comment, and every node above it contains a tree that has grown.  If
not, the block must have grown inside of itself, as a change of its own statements would be seen. -/

/-- A node whose first operand, if it has several, is not the one at the end. -/
theorem hosts_phrase {p : Phrase} {before : List Term} (hp : (NodeKind.phrase p).hosts = true)
    (hexpr : p ≠ .expr) (hbefore : p = .lambda → before ≠ []) : Hosts (.phrase p) before [] where
  hosts := hp
  parameters h := hbefore (by cases p <;> first | rfl | cases h)
  statement h := absurd (NodeKind.phrase.inj h) hexpr

theorem carries_phrase {p : Phrase} {before after : List Term} (x : Term) (hexpr : p ≠ .expr)
    (hbrackets : p ≠ .brackets) (hbefore : p = .lambda → before ≠ []) :
    Carries (.phrase p) before x after where
  declared _ _ _ h := by cases h
  parameters h := hbefore (NodeKind.phrase.inj h)
  enclosed h := absurd (NodeKind.phrase.inj h) hbrackets
  statement h := absurd (NodeKind.phrase.inj h) hexpr

/-- The sign before the last operand stands for a node that evaluates it. -/
def SignsHost (ts : List Term) : Prop :=
  ∀ t, ts.getLast? = some t → ∃ s, t = .symbol s ∧ hostSign s = true

variable {g : Stage} {x x' : Term}

/-- Of an operator tree with another block at its end, either the tree is the block or it has grown. -/
def Replaced (g : Stage) (x x' : Term) (hx' : isAtom x' = true) (e : OpTree) (ts : List Term) : Prop :=
  ts = [] ∧ e.term = x ∧ (e.withLast x' hx').term = x' ∨ Grows g e.term (e.withLast x' hx').term

/-- One sign further up.  Either the tree below is the block itself, and then the sign is the one that
decides; or the tree below has grown already, and the node carries it. -/
theorem grows_parent {hx' : isAtom x' = true} {sub : OpTree} {p : Phrase} {s : String}
    (before above : List Term) {ts : List Term} (hp : hostSign s = true → (NodeKind.phrase p).hosts = true)
    (hexpr : p ≠ .expr) (hbrackets : p ≠ .brackets) (hbefore : p = .lambda → before ≠ [])
    (ih : g.Notes x x' ∧ SignsHost ts ∨ Grows g x x' → Replaced g x x' hx' sub ts)
    (h : g.Notes x x' ∧ SignsHost (above ++ .symbol s :: ts) ∨ Grows g x x') :
    Grows g (.phrase p (before ++ [sub.term])) (.phrase p (before ++ [(sub.withLast x' hx').term])) := by
  have hsub : g.Notes x x' ∧ SignsHost ts ∨ Grows g x x' := by
    refine h.imp_left (And.imp_right fun hs t ht => hs t ?_)
    rw [List.getLast?_append, List.getLast?_cons, ht]
    rfl
  rcases ih hsub with ⟨rfl, hterm, hterm'⟩ | hgrows
  · rw [hterm, hterm']
    rcases h with ⟨hnotes, hs⟩ | hgrows
    · -- the block itself is the operand of this sign
      obtain ⟨s', hs', hhost⟩ := hs (.symbol s) (by simp)
      cases hs'
      exact .here (hosts_phrase (hp hhost) hexpr hbefore) hnotes
    · exact .inside (carries_phrase x hexpr hbrackets hbefore) hgrows
  · exact .inside (carries_phrase _ hexpr hbrackets hbefore) hgrows

theorem hosts_opener (o : Opener) (h : hostSign o.sign = true) :
    (NodeKind.phrase o.phrase).hosts = true := by
  cases o <;> first | rfl | cases h

theorem hosts_joiner (o : Joiner) (h : hostSign o.sign = true) :
    (NodeKind.phrase o.phrase).hosts = true := by
  cases o <;> first | rfl | cases h

/-- **Another block at the end of a statement.**  The induction follows the last operand (`induction_last`).
At the block nothing is above it yet; each sign on the way up is one use of `grows_parent`. -/
theorem replaced (hx : x.isNode = true) (hx' : isAtom x' = true) (e : OpTree) (ts : List Term)
    (hy : e.yield = ts ++ [x]) (h : g.Notes x x' ∧ SignsHost ts ∨ Grows g x x') :
    Replaced g x x' hx' e ts := by
  refine OpTree.induction_last hx
    (motive := fun e ts => (g.Notes x x' ∧ SignsHost ts ∨ Grows g x x') → Replaced g x x' hx' e ts)
    (fun _ _ => .inl ⟨rfl, rfl, rfl⟩) (fun o arg ts _ ih h => .inr ?_)
    (fun o left right ts _ ih h => .inr ?_) (fun left condition other ts _ ih h => .inr ?_) e ts hy h
  · exact grows_parent [] [] (hosts_opener o) (by cases o <;> decide) (by cases o <;> decide)
      (by cases o <;> decide) ih h
  · have hparent : ∀ before : List Term, before ≠ [] →
        Grows g (.phrase o.phrase (before ++ [right.term]))
          (.phrase o.phrase (before ++ [(right.withLast x' hx').term])) := fun before hbefore =>
      grows_parent before _ (hosts_joiner o) (by cases o <;> decide) (by cases o <;> decide)
        (fun _ => hbefore) ih h
    cases o with
    | comma => exact hparent (commaItems left.term) (OpTree.commaItems_ne_nil left)
    | _ => exact hparent [left.term] (by simp)
  · rw [← List.cons_append, ← List.append_assoc] at h
    exact grows_parent (p := .ifElse) [condition.term, left.term] _ (fun _ => rfl) (by decide) (by decide)
      (fun _ => by simp) ih h

/-! ## 3. The passes

Each pass changes nodes of one kind only (`target`), and passes over all others.  So to be stable is a
statement about one node with one child exchanged, and `stable_pass` does the rest for all passes at once. -/

/-- The nodes that a pass looks at. -/
def target : Pass → Phrase
  | .insertCalls | .precedence => .expr
  | .nameParameters => .lambda
  | .bracketArguments => .call
  | .bracketValue => .brackets

theorem apply_of_ne (p : Pass) {k : NodeKind} (hk : k ≠ .phrase (target p)) (s : Site) (kids : List Term) :
    p.apply (.node k s kids) = .ok (.node k s kids) := by
  have hne : ∀ {s' kids'}, Term.node k s kids ≠ .node (.phrase (target p)) s' kids' :=
    fun heq => hk (Term.node.inj heq).1
  cases p <;> simp only [Pass.apply, Tree.insertCalls, Tree.precedence, Tree.nameParameters,
    Tree.bracketArguments, Tree.bracketValue]
  all_goals split
  all_goals first | rfl | exact absurd (by assumption) hne

/-- A pass has to be looked at only where it does something. -/
theorem stable_pass (p : Pass) (hg : g.block = .phrase .block) {g' : Stage}
    (hg' : g'.block = .phrase .block)
    (hnote : ∀ c, g.IsNote c → ∃ c', Visits p.apply c c' ∧ g'.IsNote c')
    (hnode : ∀ {s : Site} {before after : List Term} {x x' u : Term},
      Spot g' (.phrase (target p)) before x x' after →
      p.apply (.node (.phrase (target p)) s (before ++ x :: after)) = .ok u →
      ∃ u', p.apply (.node (.phrase (target p)) s (before ++ x' :: after)) = .ok u' ∧ Grows g' u u') :
    Stable p.apply g g' where
  note := hnote
  block s := ⟨s, fun kids => by rw [hg, hg']; exact p.apply_node rfl s kids⟩
  sign s := p.apply_token rfl
  comma s kids := p.apply_node rfl s kids
  node := by
    intro k s before after x x' u hspot hu
    by_cases hk : k = .phrase (target p)
    · subst hk
      exact hnode hspot hu
    · obtain rfl := Except.ok.inj ((apply_of_ne p hk s _).symm.trans hu)
      exact ⟨_, apply_of_ne p hk s _, hspot.grows s⟩

/-- A node that the pass leaves alone, whatever its children are. -/
theorem exists_of_apply_eq {p : Pass} {k : NodeKind} {s : Site} {before after : List Term} {u : Term}
    (hspot : Spot g k before x x' after)
    (h : ∀ y, p.apply (.node k s (before ++ y :: after)) = .ok (.node k s (before ++ y :: after)))
    (hu : p.apply (.node k s (before ++ x :: after)) = .ok u) :
    ∃ u', p.apply (.node k s (before ++ x' :: after)) = .ok u' ∧ Grows g u u' := by
  obtain rfl := Except.ok.inj ((h x).symm.trans hu)
  exact ⟨_, h x', hspot.grows s⟩

/-- **Naming parameters.**  The pass changes functions only.  A comment may stand in the body but not among
the parameters, which come before it, so these are named as without it. -/
theorem stable_nameParameters (hg : g.block = .phrase .block)
    (hnote : ∀ c, g.IsNote c → Visits Pass.nameParameters.apply c c) :
    Stable Pass.nameParameters.apply g g := by
  refine stable_pass .nameParameters hg hg (fun c hc => ⟨c, hnote c hc, hc⟩) ?_
  intro s before after x x' u hspot hu
  dsimp only [target] at hspot hu ⊢
  have hbefore : before ≠ [] := by
    rcases hspot with ⟨-, hk⟩ | ⟨-, hk⟩
    · exact hk.parameters rfl
    · exact hk.parameters rfl
  match before, after with
  | [], _ => exact absurd rfl hbefore
  | [args], [] =>
    obtain ⟨ps, hps, hu⟩ := ok_of_bind hu
    obtain rfl := Except.ok.inj hu
    refine ⟨.node (.phrase .lambda) s [ps, x'], ?_, ?_⟩
    · simp only [Pass.apply, Tree.nameParameters, List.cons_append, List.nil_append, hps]
      rfl
    · have hspot' : Spot g (.phrase .lambda) [ps] x x' [] := hspot.mono
        (fun hk => ⟨hk.hosts, fun _ => by simp, fun h => by cases h⟩)
        (fun hk => ⟨hk.declared, fun _ => by simp, hk.enclosed, fun _ => rfl⟩)
      exact hspot'.grows s
  | [_], _ :: _ => exact exists_of_apply_eq hspot (fun y => rfl) hu
  | _ :: _ :: [], _ => exact exists_of_apply_eq hspot (fun y => rfl) hu
  | _ :: _ :: _ :: _, _ => exact exists_of_apply_eq hspot (fun y => rfl) hu

theorem markCalls_cons (prev : Option Term) (t : Term) (ts : List Term) :
    markCalls prev (t :: ts) =
      (if prev.any (Term.isWord .id) then startsArgument t else pure false) >>= fun here =>
        markCalls (some t) ts >>= fun rest =>
          pure (if here then callSign :: t :: rest else t :: rest) := by
  rw [markCalls]
  split <;> rfl

/-- A block at the end of a statement is no argument of a call that is implied, and no call is implied
after it. -/
theorem markCalls_concat_node {prev : Option Term} {ts us : List Term} (hx : x.isNode = true)
    (h : markCalls prev (ts ++ [x]) = .ok us) :
    ∃ ts', us = ts' ++ [x] ∧ ts'.getLast? = ts.getLast? ∧
      ∀ y, y.isNode = true → markCalls prev (ts ++ [y]) = .ok (ts' ++ [y]) := by
  induction ts generalizing prev us with
  | nil =>
    have hprev : prev.any (Term.isWord .id) = false := by
      by_contra hany
      rw [Bool.not_eq_false] at hany
      cases x with
      | node =>
        simp only [List.nil_append, markCalls, hany, if_true] at h
        cases h
      | _ => cases hx
    have hmark : ∀ y, markCalls prev [y] = .ok [y] := by
      intro y
      simp only [markCalls, hprev]
      rfl
    exact ⟨[], Except.ok.inj (h.symm.trans (hmark x)), rfl, fun y _ => hmark y⟩
  | cons t ts ih =>
    rw [List.cons_append, markCalls_cons] at h
    obtain ⟨here, hhere, h⟩ := ok_of_bind h
    obtain ⟨rest, hrest, h⟩ := ok_of_bind h
    obtain ⟨ts', rfl, hlast, hall⟩ := ih hrest
    obtain rfl := Except.ok.inj h
    -- the sign of a call goes before `t`
    have hmark : ∀ y, y.isNode = true → markCalls prev (t :: ts ++ [y]) =
        .ok ((if here then [callSign] else []) ++ t :: ts' ++ [y]) := by
      intro y hy
      rw [List.cons_append, markCalls_cons, hhere]
      simp only [bind, Except.bind, hall y hy]
      cases here <;> rfl
    refine ⟨(if here then [callSign] else []) ++ t :: ts', ?_, ?_, hmark⟩
    · cases here <;> rfl
    · rw [List.getLast?_append, List.getLast?_cons, List.getLast?_cons, hlast]
      rfl

theorem Spot.isNode {k : NodeKind} {before after : List Term} (h : Spot g k before x x' after) :
    x.isNode = true ∧ x'.isNode = true := by
  obtain ⟨_, _, _, _, rfl, rfl⟩ := h.exists_node
  exact ⟨rfl, rfl⟩

theorem Spot.isAtom {k : NodeKind} {before after : List Term} (h : Spot g k before x x' after)
    (hx : Precedence.isAtom x = true) : Precedence.isAtom x' = true := by
  obtain ⟨k', _, _, _, rfl, rfl⟩ := h.exists_node
  cases k' with
  | phrase p => cases p <;> first | rfl | cases hx
  | _ => cases hx

theorem Spot.after_eq_nil {before after : List Term} (h : Spot g (.phrase .expr) before x x' after) :
    after = [] := by
  rcases h with ⟨-, hk⟩ | ⟨-, hk⟩
  · exact (hk.statement rfl).1
  · exact hk.statement rfl

/-- A call is implied between an identifier and what may start an argument.  A block may not, so no call is
implied before it, nor after it, as nothing comes after it. -/
theorem stable_insertCalls : Stable Pass.insertCalls.apply .laidOut .laidOut := by
  refine stable_pass .insertCalls rfl rfl ?_ ?_
  · rintro _ ⟨n, rfl⟩
    exact ⟨_, Tree.visits_node (Tree.visitsAll_one (Pass.visits_token .insertCalls rfl)) rfl, n, rfl⟩
  · intro s before after x x' u hspot hu
    dsimp only [target] at hspot hu ⊢
    obtain rfl := hspot.after_eq_nil
    obtain ⟨hx, hx'⟩ := hspot.isNode
    simp only [Pass.apply, Tree.insertCalls, List.length_append, List.length_singleton] at hu ⊢
    split at hu
    · rename_i hlength
      obtain rfl := Except.ok.inj hu
      exact ⟨_, if_pos hlength, hspot.grows s⟩
    · rename_i hlength
      obtain ⟨us, hus, hu⟩ := ok_of_bind hu
      obtain rfl := Except.ok.inj hu
      obtain ⟨ts, rfl, hlast, hall⟩ := markCalls_concat_node hx hus
      refine ⟨.phrase .expr (ts ++ [x']), ?_, ?_⟩
      · rw [if_neg hlength, hall x' hx']
        rfl
      · have hspot' : Spot .laidOut (.phrase .expr) ts x x' [] := hspot.mono
          (fun hk => ⟨hk.hosts, (by cases ·), fun h => hlast ▸ hk.statement h⟩)
          (fun hk => ⟨hk.declared, (by cases ·), hk.enclosed, fun _ => rfl⟩)
        exact hspot'.grows none

/-- **A statement is read as before**, with the other block in the place of the one at its end.  That a
reading is found is the completeness of the reader: the tree with the other block respects the powers and
yields the tokens, and the reader finds the tree that does. -/
theorem stable_precedence : Stable Pass.precedence.apply .laidOut .parsed := by
  refine stable_pass .precedence rfl rfl ?_ ?_
  · rintro _ ⟨n, rfl⟩
    refine ⟨_, Tree.visits_node (Tree.visitsAll_one (Pass.visits_token .precedence rfl)) ?_, n, rfl⟩
    exact OpTree.read_yield (e := .atom (.word .comment n) rfl) trivial
  · intro s before after x x' u hspot hu
    dsimp only [target] at hspot hu ⊢
    obtain rfl := hspot.after_eq_nil
    obtain ⟨hx, hx'⟩ := hspot.isNode
    obtain ⟨e, he, hy, rfl⟩ := Precedence.read_sound hu
    have hatom : isAtom x' = true := hspot.isAtom (e.isAtom_last hx hy)
    refine ⟨(e.withLast x' hatom).term, ?_, ?_⟩
    · rw [← e.yield_withLast hatom hx hy]
      exact OpTree.read_yield ((e.respects_withLast hatom).2 he)
    · rcases hspot with ⟨hnotes, hk⟩ | ⟨hgrows, -⟩
      · obtain ⟨-, s, hlast, hs⟩ := hk.statement rfl
        have hsigns : SignsHost before := fun t ht => ⟨s, Option.some.inj (ht.symm.trans hlast), hs⟩
        rcases replaced hx hatom e before hy (.inl ⟨hnotes, hsigns⟩) with ⟨rfl, -⟩ | h
        · cases hlast
        · exact h
      · rcases replaced hx hatom e before hy (.inr hgrows) with ⟨-, hterm, hterm'⟩ | h
        · rwa [hterm, hterm']
        · exact h

theorem Grows.isPhrase_eq (h : Grows g x x') (p : Phrase) : x'.isPhrase p = x.isPhrase p := by
  obtain ⟨k, _, _, _, rfl, rfl⟩ := h.exists_node
  cases k <;> rfl

/-- A call carries a term that has grown on both sides. -/
theorem grows_call (h : Grows g x x') (before after : List Term) (s : Site) :
    Grows g (.node (.phrase .call) s (before ++ x :: after))
      (.node (.phrase .call) s (before ++ x' :: after)) :=
  .inside (carries_phrase x (by decide) (by decide) (fun h => by cases h)) h

/-- Brackets are put around a list with commas, whether it has grown or not. -/
theorem grows_brackets (h : Grows g x x') (hcomma : x.isPhrase .comma = true) :
    Grows g (.phrase .brackets [x]) (.phrase .brackets [x']) := by
  have hcarries : Carries (.phrase .brackets) [] x [] :=
    ⟨(fun _ _ _ h => by cases h), (by cases ·), fun _ => hcomma, fun _ => rfl⟩
  exact .inside hcarries h

/-- Brackets are put around arguments that are separated by commas.  Whether they are is a question about the
kind of the argument, and a term that has grown has kept its kind. -/
theorem stable_bracketArguments : Stable Pass.bracketArguments.apply .parsed .parsed := by
  refine stable_pass .bracketArguments rfl rfl ?_ ?_
  · rintro _ ⟨n, rfl⟩
    exact ⟨_, Pass.visits_token .bracketArguments rfl, n, rfl⟩
  · intro s before after x x' u hspot hu
    dsimp only [target] at hspot hu ⊢
    have hgrows : Grows .parsed x x' := by
      rcases hspot with ⟨-, hk⟩ | ⟨h, -⟩
      · cases hk.hosts
      · exact h
    match before, after with
    | [], [right] =>
      simp only [Pass.apply, Tree.bracketArguments, List.nil_append] at hu ⊢
      split at hu
      · rename_i hcomma
        obtain rfl := Except.ok.inj hu
        exact ⟨_, if_pos hcomma, grows_call hgrows [] _ none⟩
      · rename_i hcomma
        obtain rfl := Except.ok.inj hu
        exact ⟨_, if_neg hcomma, grows_call hgrows [] _ s⟩
    | [left], [] =>
      simp only [Pass.apply, Tree.bracketArguments, List.cons_append, List.nil_append] at hu ⊢
      rw [hgrows.isPhrase_eq]
      split at hu
      · rename_i hcomma
        obtain rfl := Except.ok.inj hu
        exact ⟨_, if_pos hcomma, grows_call (grows_brackets hgrows hcomma) [left] _ none⟩
      · rename_i hcomma
        obtain rfl := Except.ok.inj hu
        exact ⟨_, if_neg hcomma, grows_call hgrows [left] _ s⟩
    | [], [] => exact exists_of_apply_eq hspot (fun y => rfl) hu
    | [], _ :: _ :: _ => exact exists_of_apply_eq hspot (fun y => rfl) hu
    | [_], _ :: _ => exact exists_of_apply_eq hspot (fun y => rfl) hu
    | _ :: _ :: [], _ => exact exists_of_apply_eq hspot (fun y => rfl) hu
    | _ :: _ :: _ :: _, _ => exact exists_of_apply_eq hspot (fun y => rfl) hu

/-! ## 4. Lowering

Lowering exchanges the kind of a node for another.  Two kinds rearrange their children on the way: an array
takes the elements of a list with commas, and a match exchanges its sides if a text is on the left.  In both
the child that has grown is found again, in a place where it may grow. -/

/-- Whether a node can be made depends on the number of its children alone. -/
theorem plainBuild_of_length {k : NodeKind} {kids : List Term} {u : Term} (h : k.plainBuild kids = .ok u)
    {kids' : List Term} (hlength : kids'.length = kids.length) :
    u = .node k none kids ∧ k.plainBuild kids' = .ok (.node k none kids') := by
  unfold NodeKind.plainBuild at h ⊢
  split at h
  · split at h
    · rename_i hcount
      exact ⟨(Except.ok.inj h).symm, if_pos (hlength.trans hcount)⟩
    · cases h
  · exact ⟨(Except.ok.inj h).symm, rfl⟩

theorem carries_action (a : Action) (before : List Term) (x : Term) (after : List Term) :
    Carries (.action a) before x after where
  declared _ _ _ h := by cases h
  parameters h := by cases h
  enclosed h := by cases h
  statement h := by cases h

/-- Below the action that a node becomes a child may change as below the node. -/
theorem Spot.action {k : NodeKind} {a : Action} {before after before' after' : List Term}
    (h : Spot g k before x x' after) (ha : Tree.actionOfNode k = some a)
    (hbefore : a = .func → before ≠ [] → before' ≠ []) : Spot g (.action a) before' x x' after' := by
  have hhosts : k.hosts = true → (NodeKind.action a).hosts = true := by
    cases k with
    | phrase p => cases p <;> cases ha <;> decide
    | action b => cases b <;> cases ha <;> decide
    | declared => exact fun h => by cases h
  have hfunction : (NodeKind.action a).isFunction = true → k.hosts = true →
      a = .func ∧ k.isFunction = true := by
    cases k with
    | phrase p => cases p <;> cases ha <;> decide
    | action b => cases b <;> cases ha <;> decide
    | declared => exact fun _ h => by cases h
  have hparameters : Hosts k before after → (NodeKind.action a).isFunction = true → before' ≠ [] := by
    intro hk h
    obtain ⟨ha, hfun⟩ := hfunction h hk.hosts
    exact hbefore ha (hk.parameters hfun)
  exact h.mono (fun hk => ⟨hhosts hk.hosts, hparameters hk, (by cases ·)⟩)
    (fun _ => carries_action a before' x after')

/-- The elements of an array come from a list with commas, inside of which the term has grown. -/
theorem grows_array {k : NodeKind} {before after : List Term} {u : Term}
    (hspot : Spot g k before x x' after) (ha : Tree.actionOfNode k = some .array)
    (hu : (NodeKind.action .array).build (before ++ x :: after) = .ok u) :
    ∃ u', (NodeKind.action .array).build (before ++ x' :: after) = .ok u' ∧ Grows g u u' := by
  obtain ⟨hgrows, hk⟩ : Grows g x x' ∧ Carries k before x after := by
    rcases hspot with ⟨-, hk⟩ | h
    · have hhosts := hk.hosts
      cases k with
      | phrase p => cases p <;> first | exact absurd hhosts (by decide) | cases ha
      | action b => cases b <;> cases ha
      | declared => cases hhosts
    · exact h
  obtain rfl : k = .phrase .brackets := by
    cases k with
    | phrase p => cases p <;> first | rfl | cases ha
    | action b => cases b <;> cases ha
    | declared n p f => exact absurd rfl (hk.declared n p f)
  have hcomma := hk.enclosed rfl
  match before, after with
  | [], [] =>
    cases hgrows with
    | @here k _ _ _ _ _ hk' _ =>
      have hhosts := hk'.hosts
      cases k with
      | phrase p => cases p <;> first | exact absurd hhosts (by decide) | cases hcomma
      | _ => cases hcomma
    | inside _ h =>
      obtain rfl := Except.ok.inj hu
      exact ⟨_, rfl, .inside (carries_action .array _ _ _) h⟩
  | [], _ :: _ => cases hu
  | [_], _ => cases hu
  | _ :: _ :: _, _ => cases hu

/-- A node is no text, so the sides are exchanged on account of the other side only. -/
theorem grows_regMatch {k : NodeKind} {before after : List Term} {u : Term}
    (hspot : Spot g k before x x' after) (ha : Tree.actionOfNode k = some .regMatch)
    (hu : (NodeKind.action .regMatch).build (before ++ x :: after) = .ok u) :
    ∃ u', (NodeKind.action .regMatch).build (before ++ x' :: after) = .ok u' ∧ Grows g u u' := by
  have hspot' : ∀ before after, Spot g (.action .regMatch) before x x' after :=
    fun _ _ => hspot.action ha (by cases ·)
  match before, after with
  | [], [right] =>
    obtain ⟨_, _, _, _, rfl, rfl⟩ := hspot.exists_node
    obtain rfl := Except.ok.inj hu
    exact ⟨_, rfl, (hspot' [] [right]).grows none⟩
  | [left], [] =>
    simp only [NodeKind.build, List.cons_append, List.nil_append] at hu ⊢
    obtain rfl := Except.ok.inj hu
    refine ⟨_, rfl, ?_⟩
    split
    · exact (hspot' [] [left]).grows none
    · exact (hspot' [left] []).grows none
  | [], [] => cases hu
  | [], _ :: _ :: _ => cases hu
  | [_], _ :: _ => cases hu
  | _ :: _ :: [], _ => cases hu
  | _ :: _ :: _ :: _, _ => cases hu

/-- **Lowering.**  Two kinds of nodes are made from their children in a way of their own, arrays and matches.
All others take as many children as they have fields, and a comment inside of a child does not change how many
there are. -/
theorem stable_lowerNode : Stable Tree.lowerNode .parsed .lowered where
  note := by
    rintro _ ⟨n, rfl⟩
    exact ⟨_, Tree.visits_token rfl rfl, n, rfl⟩
  block s := ⟨none, fun _ => rfl⟩
  sign s := rfl
  comma s kids := rfl
  node := by
    intro k s before after x x' u hspot hu
    simp only [Tree.lowerNode] at hu ⊢
    cases ha : Tree.actionOfNode k with
    | none =>
      rw [ha] at hu
      obtain rfl := Except.ok.inj hu
      exact ⟨_, rfl, hspot.grows s⟩
    | some a =>
      rw [ha] at hu
      by_cases harray : a = .array
      · subst harray
        exact grows_array hspot ha hu
      by_cases hmatch : a = .regMatch
      · subst hmatch
        exact grows_regMatch hspot ha hu
      have hplain : ∀ kids, (NodeKind.action a).build kids = (NodeKind.action a).plainBuild kids := by
        intro kids
        cases a <;> first | rfl | exact absurd rfl harray | exact absurd rfl hmatch
      simp only [hplain] at hu ⊢
      have hlength : (before ++ x' :: after).length = (before ++ x :: after).length := by simp
      obtain ⟨rfl, hu'⟩ := plainBuild_of_length hu hlength
      exact ⟨_, hu', (hspot.action ha fun _ => id).grows none⟩

/-! ## 5. From a laid-out text to a tree that can be run

The passes are run one after the other, and each of them is stable from the stage before it to the stage after
it. -/

/-- A pass over a whole block, of which one statement has grown or which has the comment itself. -/
theorem Stable.run {p : Pass} {g' : Stage} (hp : Stable p.apply g g') {kids kids' : List Term} {t : Term}
    (h : GrowsAll g kids kids') (ht : p.run (.phrase .block kids) = .ok t) :
    ∃ us us', t = .phrase .block us ∧ p.run (.phrase .block kids') = .ok (.phrase .block us') ∧
      GrowsAll g' us us' := by
  obtain ⟨hv, -⟩ := p.visits_of_run ht
  obtain ⟨us, hus, hu⟩ := Tree.visits_node_iff.1 hv
  obtain rfl := p.eq_of_node rfl hu
  obtain ⟨us', hus', hgrows⟩ := hp.visitsAll h hus
  exact ⟨us, us', rfl, p.run_block hus', hgrows⟩

theorem stable_nameParameters_laidOut : Stable Pass.nameParameters.apply .laidOut .laidOut := by
  refine stable_nameParameters rfl ?_
  rintro _ ⟨n, rfl⟩
  exact Tree.visits_node (Tree.visitsAll_one (Pass.visits_token .nameParameters rfl)) rfl

theorem stable_nameParameters_parsed : Stable Pass.nameParameters.apply .parsed .parsed := by
  refine stable_nameParameters rfl ?_
  rintro _ ⟨n, rfl⟩
  exact Pass.visits_token .nameParameters rfl

/-- The passes one after the other.  After the one that reads statements the comment is a leaf of the tree. -/
theorem grows_parse {kids kids' : List Term} {t : Term} (h : GrowsAll .laidOut kids kids')
    (ht : Tree.parse (.phrase .block kids) = .ok t) :
    ∃ us us', t = .phrase .block us ∧ Tree.parse (.phrase .block kids') = .ok (.phrase .block us') ∧
      GrowsAll .parsed us us' := by
  obtain ⟨t₁, h₁, ht⟩ := ok_of_bind ht
  obtain ⟨t₂, h₂, ht⟩ := ok_of_bind ht
  obtain ⟨t₃, h₃, ht⟩ := ok_of_bind ht
  obtain ⟨t₄, h₄, ht⟩ := ok_of_bind ht
  obtain ⟨t₅, h₅, ht⟩ := ok_of_bind ht
  obtain rfl := Except.ok.inj ht
  obtain ⟨_, us₁, rfl, hrun₁, hgrows⟩ := stable_nameParameters_laidOut.run h h₁
  obtain ⟨_, us₂, rfl, hrun₂, hgrows⟩ := stable_insertCalls.run hgrows h₂
  obtain ⟨_, us₃, rfl, hrun₃, hgrows⟩ := stable_precedence.run hgrows h₃
  obtain ⟨_, us₄, rfl, hrun₄, hgrows⟩ := stable_nameParameters_parsed.run hgrows h₄
  obtain ⟨us, us₅, rfl, hrun₅, hgrows⟩ := stable_bracketArguments.run hgrows h₅
  refine ⟨us, us₅, rfl, ?_, hgrows⟩
  simp only [Tree.parse, Tree.passes, List.foldlM, hrun₁, hrun₂, hrun₃, hrun₄, hrun₅, bind, Except.bind,
    pure, Except.pure]

/-- Lowering begins with the root, which is a block before and after. -/
theorem grows_lower {kids kids' : List Term} {t : Term} (h : GrowsAll .parsed kids kids')
    (ht : Tree.lower (.phrase .block kids) = .ok t) :
    ∃ us us', t = .action .block us ∧ Tree.lower (.phrase .block kids') = .ok (.action .block us') ∧
      GrowsAll .lowered us us' := by
  have hroot : ∀ ts, Tree.lowerNode (.phrase .block ts) = .ok (.action .block ts) := fun _ => rfl
  rw [Tree.lower, Term.transform, hroot] at ht
  simp only [Term.action, bind, Except.bind] at ht
  obtain ⟨us, hus, ht⟩ := ok_of_bind ht
  obtain rfl := Except.ok.inj ht
  obtain ⟨us', hus', hgrows⟩ := stable_lowerNode.visitsAll h hus
  exact ⟨us, us', rfl, Tree.transform_eq_node (hroot kids') hus', hgrows⟩

end Comment

end Offside
