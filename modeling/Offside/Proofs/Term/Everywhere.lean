import Offside.Term.Basic
/-!
# Properties of a whole tree

A property of terms holds *everywhere* in a tree if it holds of the tree itself and of everything below
it.  Only nodes have something below them.  It holds *somewhere* if it does not fail everywhere; this can
be computed if the property can.
-/

namespace Offside

namespace Term

mutual

/-- The property holds of the term and of everything below it. -/
def Everywhere (P : Term → Prop) : Term → Prop
  | node k s kids => P (node k s kids) ∧ EverywhereAll P kids
  | t => P t

/-- The same for several terms. -/
def EverywhereAll (P : Term → Prop) : List Term → Prop
  | [] => True
  | t :: ts => t.Everywhere P ∧ EverywhereAll P ts

end

variable {P Q : Term → Prop}

theorem everywhereAll_iff {ts : List Term} : EverywhereAll P ts ↔ ∀ t ∈ ts, t.Everywhere P := by
  induction ts with
  | nil => exact ⟨fun _ => List.forall_mem_nil _, fun _ => trivial⟩
  | cons t ts ih => rw [EverywhereAll, ih, List.forall_mem_cons]

theorem everywhere_node_iff {k : NodeKind} {s : Site} {kids : List Term} :
    (node k s kids).Everywhere P ↔ P (node k s kids) ∧ ∀ t ∈ kids, t.Everywhere P := by
  rw [Everywhere, everywhereAll_iff]

theorem everywhere_token_iff {t : Term} (ht : t.isNode = false) : t.Everywhere P ↔ P t := by
  cases t with
  | node => cases ht
  | _ => exact Iff.rfl

/-- What holds everywhere holds at the root. -/
theorem Everywhere.self {t : Term} (h : t.Everywhere P) : P t := by
  cases t with
  | node => exact h.1
  | _ => exact h

mutual

theorem Everywhere.imp (h : ∀ t, P t → Q t) : ∀ t : Term, t.Everywhere P → t.Everywhere Q
  | node _ _ kids, ht => ⟨h _ ht.1, EverywhereAll.imp h kids ht.2⟩
  | nothing, ht | flag _, ht | number _, ht | text _, ht | seq _, ht | arm _ _, ht | dent _, ht
  | symbol _, ht | kind _, ht | signature _ _ _, ht | leaf _ _ _, ht => h _ ht

theorem EverywhereAll.imp (h : ∀ t, P t → Q t) :
    ∀ ts : List Term, EverywhereAll P ts → EverywhereAll Q ts
  | [], _ => trivial
  | t :: ts, hts => ⟨Everywhere.imp h t hts.1, EverywhereAll.imp h ts hts.2⟩

end

mutual

theorem Everywhere.and : ∀ t : Term, t.Everywhere P → t.Everywhere Q → t.Everywhere fun u => P u ∧ Q u
  | node _ _ kids, h, h' => ⟨⟨h.1, h'.1⟩, EverywhereAll.and kids h.2 h'.2⟩
  | nothing, h, h' | flag _, h, h' | number _, h, h' | text _, h, h' | seq _, h, h' | arm _ _, h, h'
  | dent _, h, h' | symbol _, h, h' | kind _, h, h' | signature _ _ _, h, h' | leaf _ _ _, h, h' =>
    ⟨h, h'⟩

theorem EverywhereAll.and : ∀ ts : List Term, EverywhereAll P ts → EverywhereAll Q ts →
    EverywhereAll (fun u => P u ∧ Q u) ts
  | [], _, _ => trivial
  | t :: ts, h, h' => ⟨Everywhere.and t h.1 h'.1, EverywhereAll.and ts h.2 h'.2⟩

end

mutual

/-- What holds everywhere in a tree holds everywhere in the trees below it. -/
theorem Everywhere.nested : ∀ t : Term, t.Everywhere P → t.Everywhere (Everywhere P)
  | node _ _ kids, h => ⟨h, EverywhereAll.nested kids h.2⟩
  | nothing, h | flag _, h | number _, h | text _, h | seq _, h | arm _ _, h | dent _, h
  | symbol _, h | kind _, h | signature _ _ _, h | leaf _ _ _, h => h

theorem EverywhereAll.nested : ∀ ts : List Term, EverywhereAll P ts → EverywhereAll (Everywhere P) ts
  | [], _ => trivial
  | t :: ts, h => ⟨Everywhere.nested t h.1, EverywhereAll.nested ts h.2⟩

end

mutual

/-- The property holds of the term or of something below it. -/
def somewhere (q : Term → Bool) : Term → Bool
  | node k s kids => q (node k s kids) || somewhereAmong q kids
  | t => q t

/-- The same for several terms. -/
def somewhereAmong (q : Term → Bool) : List Term → Bool
  | [] => false
  | t :: ts => t.somewhere q || somewhereAmong q ts

end

variable {q : Term → Bool}

/-- It is enough to find it in one of the terms. -/
theorem somewhereAmong_of_mem {t : Term} {ts : List Term} (ht : t ∈ ts) (h : t.somewhere q = true) :
    somewhereAmong q ts = true := by
  induction ts with
  | nil => cases ht
  | cons u us ih =>
    rw [somewhereAmong, Bool.or_eq_true]
    rcases List.mem_cons.1 ht with rfl | ht
    · exact .inl h
    · exact .inr (ih ht)

theorem somewhere_of_mem {k : NodeKind} {s : Site} {t : Term} {kids : List Term} (ht : t ∈ kids)
    (h : t.somewhere q = true) : (node k s kids).somewhere q = true := by
  rw [somewhere, somewhereAmong_of_mem ht h, Bool.or_true]

theorem somewhere_node {k : NodeKind} {s : Site} {kids : List Term} (h : q (node k s kids) = true) :
    (node k s kids).somewhere q = true := by
  rw [somewhere, h, Bool.true_or]

end Term

end Offside
