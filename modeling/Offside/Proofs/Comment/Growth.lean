import Offside.Proofs.Comment.Erasure
import Offside.Proofs.Tree.Shape
import Offside.Tree.Lowering
/-!
# One comment more

A tree *grows* if a comment is put into one of its blocks, before a statement of it (`Grows`).  The block
stands at the end of a statement, or below a node whose children are evaluated; of a statement the sign
before the block tells which node that will be.

Everything that is done to a tree before it is run makes trees that have grown of trees that have grown.

* Parameters are named, calls are inserted and arguments are enclosed without a look at blocks.
* A statement that ends with a block is read as an operator tree whose last operand is the block, and
  another block in its place is read as the same tree with the other block (`OpTree.withLast`).
* A tree is lowered node by node, and nodes whose children are evaluated stay such nodes.

In the end nothing is left of the comment when the tree is stripped (`Grows.strip_eq`).
-/

namespace Offside

namespace Comment

/-! ## 1. Trees that grow

Three forms of a tree come up: laid out, parsed and lowered.  They differ in what a block and a comment are
(`Stage`), and in nothing that matters here, so trees grow at every stage by the same rules.  A rule is about
one child of a node: either the child is a block that takes the comment, and then the node must be one that
evaluates it (`Hosts`), or the child has grown inside of itself, and then the node must be one that a pass
does not take apart there (`Carries`). -/

/-- What blocks and comments are at one stage of the reading. -/
structure Stage where
  block : NodeKind
  IsNote : Term → Prop

namespace Stage

/-- In a text that is laid out a comment is a statement of its own. -/
def laidOut : Stage := ⟨.phrase .block, fun t => ∃ s, t = .phrase .expr [.word .comment s]⟩

def parsed : Stage := ⟨.phrase .block, fun t => ∃ s, t = .word .comment s⟩

def lowered : Stage := ⟨.action .block, fun t => ∃ s, t = .datum .comment (.text s)⟩

/-- A block, and the same block with a comment before one of its statements. -/
inductive Notes (g : Stage) : Term → Term → Prop where
  | intro (s : Site) {c : Term} (hc : g.IsNote c) (above : List Term) (t : Term) (below : List Term) :
      Notes g (.node g.block s (above ++ t :: below)) (.node g.block s (above ++ c :: t :: below))

end Stage

/-- The block after this sign stands to be evaluated. -/
def hostSign (s : String) : Bool := s ≠ "match" && s ≠ "," && s ≠ "@"

/-- A block between these children of a node stands to be evaluated. -/
structure Hosts (k : NodeKind) (before after : List Term) : Prop where
  hosts : k.hosts = true
  parameters : k.isFunction = true → before ≠ []
  statement : k = .phrase .expr → after = [] ∧ ∃ s, before.getLast? = some (.symbol s) ∧ hostSign s = true

/-- The child between these children of a node may be one that has grown. -/
structure Carries (k : NodeKind) (before : List Term) (x : Term) (after : List Term) : Prop where
  declared : ∀ n p f, k ≠ .declared n p f
  parameters : k = .phrase .lambda → before ≠ []
  enclosed : k = .phrase .brackets → x.isPhrase .comma = true
  statement : k = .phrase .expr → after = []

/-- The tree with one comment more. -/
inductive Grows (g : Stage) : Term → Term → Prop where
  | here {k : NodeKind} {s : Site} {before after : List Term} {x x' : Term} (hk : Hosts k before after)
      (h : g.Notes x x') : Grows g (.node k s (before ++ x :: after)) (.node k s (before ++ x' :: after))
  | inside {k : NodeKind} {s : Site} {before after : List Term} {x x' : Term}
      (hk : Carries k before x after) (h : Grows g x x') :
      Grows g (.node k s (before ++ x :: after)) (.node k s (before ++ x' :: after))

/-- A child of a node changes in one of the two ways. -/
def Spot (g : Stage) (k : NodeKind) (before : List Term) (x x' : Term) (after : List Term) : Prop :=
  g.Notes x x' ∧ Hosts k before after ∨ Grows g x x' ∧ Carries k before x after

theorem Spot.grows {g : Stage} {k : NodeKind} {before after : List Term} {x x' : Term}
    (h : Spot g k before x x' after) (s : Site) :
    Grows g (.node k s (before ++ x :: after)) (.node k s (before ++ x' :: after)) := by
  rcases h with ⟨h, hk⟩ | ⟨h, hk⟩
  · exact .here hk h
  · exact .inside hk h

/-- Nodes stay nodes of their kind. -/
theorem Grows.exists_node {g : Stage} {x x' : Term} (h : Grows g x x') :
    ∃ k s kids kids', x = .node k s kids ∧ x' = .node k s kids' := by
  cases h with
  | here => exact ⟨_, _, _, _, rfl, rfl⟩
  | inside => exact ⟨_, _, _, _, rfl, rfl⟩

theorem Spot.exists_node {g : Stage} {k : NodeKind} {before after : List Term} {x x' : Term}
    (h : Spot g k before x x' after) : ∃ k s kids kids', x = .node k s kids ∧ x' = .node k s kids' := by
  rcases h with ⟨h, -⟩ | ⟨h, -⟩
  · cases h
    exact ⟨_, _, _, _, rfl, rfl⟩
  · exact h.exists_node

/-- The child may change in the same way below a node of another kind. -/
theorem Spot.mono {g : Stage} {k k' : NodeKind} {before after before' after' : List Term} {x x' : Term}
    (h : Spot g k before x x' after) (hhosts : Hosts k before after → Hosts k' before' after')
    (hcarries : Carries k before x after → Carries k' before' x after') :
    Spot g k' before' x x' after' :=
  h.imp (And.imp_right hhosts) (And.imp_right hcarries)

/-- The statements of a text with one comment more: among them, also at their end, or inside of one. -/
inductive GrowsAll (g : Stage) : List Term → List Term → Prop where
  | note {c : Term} (hc : g.IsNote c) (above below : List Term) :
      GrowsAll g (above ++ below) (above ++ c :: below)
  | inside {x x' : Term} (h : Grows g x x') (above below : List Term) :
      GrowsAll g (above ++ x :: below) (above ++ x' :: below)

/-! ## 2. From single nodes to trees

A pass visits the children of a node before the node.  So if a function is known to keep growth at single
nodes, where the children have been visited already (`Stable`), then it keeps the growth of whole trees.  This
is the only induction over trees that is made here; each pass only has to be shown to be stable. -/

open Offside.Tree (Visits VisitsAll visits_node visits_node_iff visits_token visits_token_iff visitsAll_cons_iff
  visitsAll_cons visitsAll_append visitsAll_nil)

variable {f : Term → Except Error Term} {g g' : Stage}

/-- A row in two parts is visited part by part. -/
theorem visitsAll_append_iff {ts us vs : List Term} :
    VisitsAll f (ts ++ us) vs ↔ ∃ ts' us', vs = ts' ++ us' ∧ VisitsAll f ts ts' ∧ VisitsAll f us us' := by
  constructor
  · intro h
    induction ts generalizing vs with
    | nil => exact ⟨[], vs, rfl, visitsAll_nil, h⟩
    | cons t ts ih =>
      obtain ⟨t', vs, rfl, ht, hvs⟩ := visitsAll_cons_iff.1 h
      obtain ⟨ts', us', rfl, hts, hus⟩ := ih hvs
      exact ⟨t' :: ts', us', rfl, visitsAll_cons ht hts, hus⟩
  · rintro ⟨ts', us', rfl, hts, hus⟩
    exact visitsAll_append hts hus

/-- The function makes nodes that have grown of nodes that have grown, if it has done so with the
children. -/
structure Stable (f : Term → Except Error Term) (g g' : Stage) : Prop where
  note : ∀ c, g.IsNote c → ∃ c', Visits f c c' ∧ g'.IsNote c'
  block : ∀ s, ∃ s', ∀ kids, f (.node g.block s kids) = .ok (.node g'.block s' kids)
  sign : ∀ s, f (.symbol s) = .ok (.symbol s)
  comma : ∀ s kids, f (.node (.phrase .comma) s kids) = .ok (.node (.phrase .comma) s kids)
  node : ∀ {k : NodeKind} {s : Site} {before after : List Term} {x x' u : Term},
    Spot g' k before x x' after → f (.node k s (before ++ x :: after)) = .ok u →
    ∃ u', f (.node k s (before ++ x' :: after)) = .ok u' ∧ Grows g' u u'

namespace Stable

/-- The comment is visited where it is put in, and it stays a comment.  Everything around it is visited as
without it. -/
theorem notes (hf : Stable f g g') {x x' u : Term} (h : g.Notes x x') (hv : Visits f x u) :
    ∃ u', Visits f x' u' ∧ g'.Notes u u' := by
  cases h with
  | intro s hc above t below =>
    obtain ⟨kids, hkids, hu⟩ := visits_node_iff.1 hv
    obtain ⟨above', rest, rfl, habove, hrest⟩ := visitsAll_append_iff.1 hkids
    obtain ⟨t', below', rfl, ht, hbelow⟩ := visitsAll_cons_iff.1 hrest
    obtain ⟨c', hc', hnote⟩ := hf.note _ hc
    obtain ⟨s', hblock⟩ := hf.block s
    obtain rfl := Except.ok.inj ((hblock _).symm.trans hu)
    refine ⟨_, visits_node ?_ (hblock _), .intro s' hnote above' t' below'⟩
    exact visitsAll_append habove (visitsAll_cons hc' (visitsAll_cons ht hbelow))

/-- A node that evaluates its child still does so after the other children have been visited: how many there
are is the same, and a sign is left as it is. -/
theorem hosts (hf : Stable f g g') {k : NodeKind} {before after before' after' : List Term}
    (hk : Hosts k before after) (hbefore : VisitsAll f before before')
    (hafter : VisitsAll f after after') : Hosts k before' after' where
  hosts := hk.hosts
  parameters h := by
    have hne := hk.parameters h
    rwa [← List.length_pos_iff, hbefore.length_eq, List.length_pos_iff]
  statement h := by
    obtain ⟨rfl, s, hlast, hs⟩ := hk.statement h
    obtain rfl := Except.ok.inj hafter
    obtain ⟨us, rfl⟩ := List.getLast?_eq_some_iff.1 hlast
    obtain ⟨us', rest, rfl, -, hrest⟩ := visitsAll_append_iff.1 hbefore
    obtain ⟨t, ts, rfl, ht, hts⟩ := visitsAll_cons_iff.1 hrest
    obtain rfl := Except.ok.inj hts
    obtain rfl := Except.ok.inj ((visits_token_iff rfl).1 ht ▸ hf.sign s)
    exact ⟨rfl, s, by simp, hs⟩

/-- A node may still take a comment below it after its children have been visited: there are as many before
and after as there were, and a comma is still a comma. -/
theorem carries (hf : Stable f g g') {k : NodeKind} {x u : Term} {before after before' after' : List Term}
    (hk : Carries k before x after) (hbefore : VisitsAll f before before') (hx : Visits f x u)
    (hafter : VisitsAll f after after') : Carries k before' u after' where
  declared := hk.declared
  parameters h := by
    have hne := hk.parameters h
    rwa [← List.length_pos_iff, hbefore.length_eq, List.length_pos_iff]
  enclosed h := by
    have hcomma := hk.enclosed h
    obtain ⟨s, kids, rfl⟩ : ∃ s kids, x = .node (.phrase .comma) s kids := by
      cases x with
      | node k s kids =>
        cases k with
        | phrase p =>
          obtain rfl : Phrase.comma = p := by simpa [Term.isPhrase] using hcomma
          exact ⟨s, kids, rfl⟩
        | _ => cases hcomma
      | _ => cases hcomma
    obtain ⟨kids', -, hu⟩ := visits_node_iff.1 hx
    obtain rfl := Except.ok.inj ((hf.comma s kids').symm.trans hu)
    rfl
  statement h := by
    obtain rfl := hk.statement h
    exact (Except.ok.inj hafter).symm

/-- **A tree that has grown is made into one that has grown.**  The induction is on how the tree has grown.
Where the comment is put in, the block stays a block and the comment a comment (`notes`); further up, the
children around the one that has grown are visited as before, and what the function makes of the node is the
last field of `Stable`. -/
theorem visits (hf : Stable f g g') {t t' u : Term} (h : Grows g t t') (hv : Visits f t u) :
    ∃ u', Visits f t' u' ∧ Grows g' u u' := by
  induction h generalizing u with
  | here hk h =>
    obtain ⟨kids, hkids, hu⟩ := visits_node_iff.1 hv
    obtain ⟨before', rest, rfl, hbefore, hrest⟩ := visitsAll_append_iff.1 hkids
    obtain ⟨x₁, after', rfl, hx, hafter⟩ := visitsAll_cons_iff.1 hrest
    obtain ⟨x₂, hx', hnotes⟩ := hf.notes h hx
    obtain ⟨u', hu', hgrows⟩ := hf.node (.inl ⟨hnotes, hf.hosts hk hbefore hafter⟩) hu
    exact ⟨u', visits_node (visitsAll_append hbefore (visitsAll_cons hx' hafter)) hu', hgrows⟩
  | inside hk _ ih =>
    obtain ⟨kids, hkids, hu⟩ := visits_node_iff.1 hv
    obtain ⟨before', rest, rfl, hbefore, hrest⟩ := visitsAll_append_iff.1 hkids
    obtain ⟨x₁, after', rfl, hx, hafter⟩ := visitsAll_cons_iff.1 hrest
    obtain ⟨x₂, hx', hgrows⟩ := ih hx
    obtain ⟨u', hu', hgrows⟩ := hf.node (.inr ⟨hgrows, hf.carries hk hbefore hx hafter⟩) hu
    exact ⟨u', visits_node (visitsAll_append hbefore (visitsAll_cons hx' hafter)) hu', hgrows⟩

/-- The same for terms in a row, of which one has grown or is the comment itself. -/
theorem visitsAll (hf : Stable f g g') {ts ts' us : List Term} (h : GrowsAll g ts ts')
    (hv : VisitsAll f ts us) : ∃ us', VisitsAll f ts' us' ∧ GrowsAll g' us us' := by
  cases h with
  | note hc above below =>
    obtain ⟨above', below', rfl, habove, hbelow⟩ := visitsAll_append_iff.1 hv
    obtain ⟨c', hc', hnote⟩ := hf.note _ hc
    exact ⟨_, visitsAll_append habove (visitsAll_cons hc' hbelow), .note hnote above' below'⟩
  | inside h above below =>
    obtain ⟨above', rest, rfl, habove, hrest⟩ := visitsAll_append_iff.1 hv
    obtain ⟨u, below', rfl, hu, hbelow⟩ := visitsAll_cons_iff.1 hrest
    obtain ⟨u', hu', hgrows⟩ := hf.visits h hu
    exact ⟨_, visitsAll_append habove (visitsAll_cons hu' hbelow), .inside hgrows above' below'⟩

end Stable

/-! ## 3. Nothing is left of the comment

After lowering, the comment stands in a block before a statement, and the block stands where it is evaluated.
Trimming that block drops the comment, and stripping trims exactly the blocks that stand like this.  On the
way up to the root nothing else has to be looked at: two trees with equal stripped children are equal when
they are stripped. -/

/-- A comment with a statement behind it is dropped, whatever stands before it. -/
theorem dropIdle_append_comment {c : Term} (hc : c.isComment = true) (above : List Term) (t : Term)
    (below : List Term) :
    Term.dropIdle (above ++ c :: t :: below) = Term.dropIdle (above ++ t :: below) := by
  induction above with
  | nil => exact if_pos hc
  | cons u above ih =>
    cases above with
    | nil =>
      simp only [List.cons_append, List.nil_append, Term.dropIdle, if_pos hc]
    | cons v above =>
      simp only [List.cons_append, Term.dropIdle] at ih ⊢
      rw [ih]

/-- A block with a comment more is the same once it is stripped and trimmed, if a statement follows the
comment. -/
theorem trim_strip_of_notes {x x' : Term} (h : Stage.lowered.Notes x x') :
    x'.strip.trim = x.strip.trim := by
  cases h with
  | intro s hc above t below =>
    obtain ⟨n, rfl⟩ := hc
    show Term.node (.action .block) s (Term.dropIdle (Term.stripAll _)) =
      Term.node (.action .block) s (Term.dropIdle (Term.stripAll _))
    simp only [Term.stripAll_eq_map, List.map_append, List.map_cons]
    rw [dropIdle_append_comment (by rfl)]

/-- Where children are evaluated it does not matter whether one is trimmed. -/
theorem settle_congr {k : NodeKind} (hk : k.hosts = true) {before : List Term}
    (hbefore : k.isFunction = true → before ≠ []) {x x' : Term} (h : x'.trim = x.trim)
    (after : List Term) :
    k.settle (before ++ x' :: after) = k.settle (before ++ x :: after) := by
  unfold NodeKind.settle
  split
  · rename_i hfun
    obtain ⟨b, before, rfl⟩ := List.exists_cons_of_ne_nil (hbefore hfun)
    simp [h]
  · simp [h]

/-- **A tree that has grown is the same when it is stripped.**  At the node that evaluates the block, the two
blocks are equal when they are trimmed; above it, the children are equal already. -/
theorem Grows.strip_eq {t t' : Term} (h : Grows .lowered t t') : t'.strip = t.strip := by
  induction h with
  | @here k s before after x x' hk h =>
    have hparameters : k.isFunction = true → before.map Term.strip ≠ [] := by
      simpa using hk.parameters
    have hkids := settle_congr hk.hosts hparameters (trim_strip_of_notes h) (after.map Term.strip)
    simp only [Term.strip, Term.stripAll_eq_map, List.map_append, List.map_cons]
    rw [hkids]
  | inside _ _ ih =>
    simp only [Term.strip, Term.stripAll_eq_map, List.map_append, List.map_cons, ih]

end Comment

end Offside
