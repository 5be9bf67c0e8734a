import Offside.Proofs.Eval.Runnable
/-!
# Trees that have been lowered

Lowering goes through a tree once, and what it makes of a term it does not visit again.  Once is enough.  In
the tree that it makes of the syntax tree of a text every leaf can be run, and every node is one that it
leaves as it is (`settled_lower`).  So no word is left, at any depth, and lowering the tree once more changes
nothing (`lower_of_settled`).

Of the nodes that can be run two are made anew when they are lowered, the conditionals.  They come out as
they were, because they have the children that their fields ask for.
-/

namespace Offside

namespace Tree

open Term (Everywhere EverywhereAll everywhere_node_iff everywhereAll_iff)

/-! ## 1. What lowering leaves as it is

What holds of single leaves and nodes is carried over to trees by induction.  Lowering begins with the root
and goes down, so it is said of a node that is settled together with everything below. -/

/-- A leaf that can be run, with a text or a number in it, or a node that lowering leaves as it is. -/
inductive Settled : Term → Prop where
  | text {d : Datum} (h : d ≠ .int) (s : String) : Settled (.leaf (.datum d) none (.text s))
  | number (n : Int) : Settled (.leaf (.datum .int) none (.number n))
  | node {k : NodeKind} {s : Site} {kids : List Term}
      (h : lowerNode (.node k s kids) = .ok (.node k s kids)) : Settled (.node k s kids)

theorem Settled.lowerNode {t : Term} (h : Settled t) : lowerNode t = .ok t := by
  cases h with
  | text => rfl
  | number => rfl
  | node h => exact h

theorem Settled.isWord {t : Term} (h : Settled t) (w : Word) : t.isWord w = false := by
  cases h <;> rfl

mutual

theorem transformBelow_of_settled :
    ∀ t : Term, t.Everywhere Settled → t.transformBelow Tree.lowerNode = .ok t
  | .node k s kids, h => by
    rw [Term.transformBelow, transformAll_of_settled kids h.2]
    rfl
  | .nothing, _ | .flag _, _ | .number _, _ | .text _, _ | .seq _, _ | .arm _ _, _ | .dent _, _
  | .symbol _, _ | .kind _, _ | .signature _ _ _, _ | .leaf _ _ _, _ => rfl

theorem transformAll_of_settled :
    ∀ ts : List Term, EverywhereAll Settled ts → Term.transformAll Tree.lowerNode ts = .ok ts
  | [], _ => rfl
  | t :: ts, h => by
    rw [Term.transformAll, transformBelow_of_settled t h.1, transformAll_of_settled ts h.2]
    show (do let t ← lowerNode t; Except.ok (t :: ts) : Except Error (List Term)) = _
    rw [h.1.self.lowerNode]
    rfl

end

/-- Lowering does nothing to a node that is settled with everything below it. -/
theorem lower_of_settled {k : NodeKind} {s : Site} {kids : List Term}
    (h : (Term.node k s kids).Everywhere Settled) : lower (.node k s kids) = .ok (.node k s kids) := by
  rw [lower, Term.transform, h.self.lowerNode]
  show (do return .node k s (← Term.transformAll lowerNode kids) : Except Error Term) = _
  rw [transformAll_of_settled kids h.2]
  rfl

mutual

/-- There are no words in what is settled. -/
theorem somewhere_of_settled (w : Word) :
    ∀ t : Term, t.Everywhere Settled → t.somewhere (Term.isWord w) = false
  | .node k s kids, h => by
    rw [Term.somewhere, h.1.isWord, somewhereAmong_of_settled w kids h.2]
    rfl
  | .nothing, h | .flag _, h | .number _, h | .text _, h | .seq _, h | .arm _ _, h | .dent _, h
  | .symbol _, h | .kind _, h | .signature _ _ _, h | .leaf _ _ _, h => h.isWord w

theorem somewhereAmong_of_settled (w : Word) :
    ∀ ts : List Term, EverywhereAll Settled ts → Term.somewhereAmong (Term.isWord w) ts = false
  | [], _ => rfl
  | t :: ts, h => by
    rw [Term.somewhereAmong, somewhere_of_settled w t h.1, somewhereAmong_of_settled w ts h.2]
    rfl

end

/-! ## 2. What lowering makes

A word becomes a leaf of its own kind, with a number if it is a numeral.  A phrase becomes a node that can be
run, with children that it had or with those of its only child; they have been lowered already, so nothing new
is put below it. -/

/-- A word becomes a leaf that can be run. -/
theorem settled_word {w : Word} {s : String} (hw : Known (.word w s)) {u : Term}
    (h : lowerNode (.word w s) = .ok u) : u.Everywhere Settled := by
  obtain ⟨w', hkind, hd⟩ := hw
  obtain rfl := LeafKind.word.inj hkind
  obtain ⟨d, hd⟩ := Option.isSome_iff_exists.1 hd
  simp only [Term.word, lowerNode, hd] at h
  by_cases hint : d = .int
  · subst hint
    obtain ⟨n, -, h⟩ := ok_of_bind h
    obtain rfl := Except.ok.inj h
    exact .number n
  · have hleaf : (LeafKind.datum d).build [.text s] = .ok (.leaf (.datum d) none (.text s)) := by
      cases d <;> first | rfl | exact absurd rfl hint
    obtain rfl := Except.ok.inj (hleaf.symm.trans h)
    exact .text hint s

/-- A node that can be run is left as it is.  The conditionals are made anew, with the same children. -/
theorem lowerNode_action {a : Action} {kids : List Term} (h : Admits a.fields kids.length) :
    lowerNode (.node (.action a) none kids) = .ok (.node (.action a) none kids) := by
  cases a with
  | ifThen => exact if_pos h
  | ifElse => exact if_pos h
  | _ => rfl

theorem settled_members {t : Term} (ht : t.Everywhere Settled) {ms : List Term}
    (hms : t.members? = some ms) : ∀ m ∈ ms, m.Everywhere Settled := by
  cases t with
  | node k s kids =>
    obtain rfl := Option.some.inj hms
    exact (everywhere_node_iff.1 ht).2
  | leaf => cases hms
  | _ => cases ht

/-- A node that can be run is settled if its children are.  What it is made of is checked when it is made, so
it has the children that its fields ask for. -/
theorem settled_action {a : Action} {kids : List Term} {u : Term}
    (h : (NodeKind.action a).build kids = .ok u) (hkids : ∀ m ∈ kids, m.Everywhere Settled) :
    u.Everywhere Settled := by
  rcases Eval.build_action_cases h with ⟨x, ms, -, rfl, hms, rfl⟩ | ⟨-, kids', rfl, hmem, hfields⟩
  · exact everywhere_node_iff.2 ⟨.node rfl, settled_members (hkids x List.mem_cons_self) hms⟩
  · exact everywhere_node_iff.2 ⟨.node (lowerNode_action hfields), fun m hm => hkids m (hmem m hm)⟩

/-- A phrase becomes a node that can be run, or it is left as it is. -/
theorem settled_phrase {p : Phrase} {s : Site} {kids : List Term} (hkids : ∀ m ∈ kids, m.Everywhere Settled)
    {u : Term} (h : lowerNode (.node (.phrase p) s kids) = .ok u) : u.Everywhere Settled := by
  cases ha : actionOf p with
  | some a =>
    simp only [lowerNode, actionOfNode, ha] at h
    exact settled_action h hkids
  | none =>
    have hsame : lowerNode (.node (.phrase p) s kids) = .ok (.node (.phrase p) s kids) := by
      simp only [lowerNode, actionOfNode, ha]
    obtain rfl := Except.ok.inj (hsame.symm.trans h)
    exact everywhere_node_iff.2 ⟨.node hsame, hkids⟩

/-- One node or leaf.  Phrases and words are all there is in a syntax tree. -/
theorem makes_lowerNode_settled :
    Makes lowerNode (fun t => Known t ∧ Finished t) (Everywhere Settled) where
  token := by
    rintro t u ht ⟨hknown, hfinished⟩ h
    cases hfinished with
    | word w s => exact settled_word hknown h
    | _ => cases ht
  node := by
    rintro k s kids kids' u ⟨-, hfinished⟩ - hkids h
    obtain ⟨p, rfl⟩ : ∃ p, k = .phrase p := by
      cases hfinished <;> exact ⟨_, rfl⟩
    exact settled_phrase hkids h

/-- Every word in what a text is read into becomes a datum. -/
theorem Written.known {t : Term} (h : Written t) : t.Everywhere Known := by
  induction h with
  | word hw => exact ⟨_, rfl, hw⟩
  | decimal => trivial
  | sign => trivial
  | lambda s _ hnames _ ih =>
    have hlist : (Term.phrase .list _).Everywhere Known := known_node fun u hu => (hnames u hu).known
    exact known_node (List.forall_mem_cons.2 ⟨hlist, List.forall_mem_singleton.2 ih⟩)
  | phrase _ _ s _ _ ih => exact known_node ih

/-- **Once is enough.**  Lowering makes of the syntax tree of a text one that is settled. -/
theorem settled_lower {source : String} {t u : Term} (h : Program.parse source = .ok t)
    (hu : lower t = .ok u) : u.Everywhere Settled ∧ ∃ kids, u = .action .block kids := by
  have hfinished := finished_parse h
  obtain ⟨hwritten, kids, rfl⟩ := written_parse h
  have hvisits := visits_of_lower hu
  refine ⟨makes_lowerNode_settled.of_visits _ (Everywhere.and _ hwritten.known hfinished) hvisits, ?_⟩
  obtain ⟨kids', -, hroot⟩ := visits_node_iff.1 hvisits
  exact ⟨kids', (Except.ok.inj hroot).symm⟩

end Tree

end Offside
