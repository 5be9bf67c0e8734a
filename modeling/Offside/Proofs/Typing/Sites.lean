import Offside.Proofs.Journal.Writable
import Offside.Proofs.Typing.Inference
/-!
# Giving sites to terms

Numbering a term that has no sites yet gives it sites that rise from left to right (`sites_enumerate`), so
no two parts of it share one.  Numbering it again leaves the sites as they are (`sites_enumerate_marked`).
Apart from sites nothing changes; in particular no number becomes too long to be written
(`writable_enumerate`).
-/

namespace Offside

namespace Term

/-! ## 1. Rising sites

`Rising` says where the numbers begin and end, so that the sites of parts in a row can be put together. -/

/-- The sites are numbers that rise, from `n` on and below `m`. -/
def Rising (n m : Nat) (ss : List Site) : Prop :=
  ∃ ks : List Nat, ss = ks.map some ∧ ks.Pairwise (· < ·) ∧ ∀ k ∈ ks, n ≤ k ∧ k < m

namespace Rising

variable {n m k : Nat} {ss us : List Site}

theorem nil (n m : Nat) : Rising n m [] := ⟨[], rfl, .nil, List.forall_mem_nil _⟩

theorem single (h : n < m) : Rising n m [some n] :=
  ⟨[n], rfl, List.pairwise_singleton _ _, List.forall_mem_singleton.2 ⟨Nat.le.refl, h⟩⟩

/-- Sites in a row rise if the second part begins where the first one ends. -/
theorem append (h : Rising n k ss) (h' : Rising k m us) (hn : n ≤ k) (hm : k ≤ m) :
    Rising n m (ss ++ us) := by
  obtain ⟨is, rfl, his, hbelow⟩ := h
  obtain ⟨js, rfl, hjs, habove⟩ := h'
  refine ⟨is ++ js, List.map_append.symm, List.pairwise_append.2 ⟨his, hjs, ?_⟩, ?_⟩
  · intro i hi j hj
    exact Nat.lt_of_lt_of_le (hbelow i hi).2 (habove j hj).1
  · intro j hj
    rcases List.mem_append.1 hj with hj | hj
    · exact ⟨(hbelow j hj).1, Nat.lt_of_lt_of_le (hbelow j hj).2 hm⟩
    · exact ⟨Nat.le_trans hn (habove j hj).1, (habove j hj).2⟩

theorem nodup (h : Rising n m ss) : ss.Nodup := by
  obtain ⟨ks, rfl, hks, -⟩ := h
  refine List.pairwise_map.2 (hks.imp fun hlt heq => ?_)
  exact Nat.ne_of_lt hlt (Option.some.inj heq)

theorem marked (h : Rising n m ss) : none ∉ ss := by
  obtain ⟨ks, rfl, -⟩ := h
  simp

end Rising

/-! ## 2. Numbering

A node is numbered before its children and these from left to right, each from where the one before has left
off.  A number goes only where there is none, so the second time there is nothing to do. -/

mutual

/-- Numbering uses numbers up. -/
theorem le_enumerate (n : Nat) : ∀ t : Term, n ≤ (t.enumerate.run n).2
  | .seq items => le_enumerateAll n items
  | .arm _ r => le_enumerate n r
  | .signature (some _) _ _ => Nat.le.refl
  | .signature none _ _ => Nat.le_succ n
  | .leaf _ (some _) v => le_enumerate n v
  | .leaf _ none v => Nat.le_of_succ_le (le_enumerate (n + 1) v)
  | .node _ (some _) kids => le_enumerateAll n kids
  | .node _ none kids => Nat.le_of_succ_le (le_enumerateAll (n + 1) kids)
  | .nothing | .flag _ | .number _ | .text _ | .dent _ | .symbol _ | .kind _ => Nat.le.refl

theorem le_enumerateAll (n : Nat) : ∀ ts : List Term, n ≤ ((enumerateAll ts).run n).2
  | [] => Nat.le.refl
  | t :: ts => Nat.le_trans (le_enumerate n t) (le_enumerateAll _ ts)

end

mutual

/-- **A term without sites gets sites that rise.** -/
theorem sites_enumerate (n : Nat) : ∀ t : Term, (∀ s ∈ t.sites, s = none) →
    Rising n (t.enumerate.run n).2 (t.enumerate.run n).1.sites
  | .leaf _ (some _) _, h => by cases h _ List.mem_cons_self
  | .leaf _ none v, _ => .single (le_enumerate (n + 1) v)
  | .node _ (some _) _, h => by cases h _ List.mem_cons_self
  | .node _ none kids, h =>
    (Rising.single (Nat.lt_succ_self n)).append
      (sites_enumerateAll (n + 1) kids fun s hs => h s (List.mem_cons_of_mem _ hs))
      (Nat.le_succ n) (le_enumerateAll (n + 1) kids)
  | .seq _, _ | .arm _ _, _ | .signature _ _ _, _ | .nothing, _ | .flag _, _ | .number _, _
  | .text _, _ | .dent _, _ | .symbol _, _ | .kind _, _ => .nil _ _

theorem sites_enumerateAll (n : Nat) : ∀ ts : List Term, (∀ s ∈ sitesAll ts, s = none) →
    Rising n ((enumerateAll ts).run n).2 (sitesAll ((enumerateAll ts).run n).1)
  | [], _ => .nil _ _
  | t :: ts, h =>
    (sites_enumerate n t fun s hs => h s (List.mem_append_left _ hs)).append
      (sites_enumerateAll _ ts fun s hs => h s (List.mem_append_right _ hs))
      (le_enumerate n t) (le_enumerateAll _ ts)

end

mutual

/-- A term that has all its sites keeps them. -/
theorem sites_enumerate_marked (n : Nat) : ∀ t : Term, none ∉ t.sites →
    (t.enumerate.run n).1.sites = t.sites
  | .leaf _ (some _) _, _ => rfl
  | .leaf _ none _, h => absurd List.mem_cons_self h
  | .node _ (some m) kids, h =>
    congrArg (some m :: ·) (sites_enumerateAll_marked n kids fun hk => h (List.mem_cons_of_mem _ hk))
  | .node _ none _, h => absurd List.mem_cons_self h
  | .seq _, _ | .arm _ _, _ | .signature _ _ _, _ | .nothing, _ | .flag _, _ | .number _, _
  | .text _, _ | .dent _, _ | .symbol _, _ | .kind _, _ => rfl

theorem sites_enumerateAll_marked (n : Nat) : ∀ ts : List Term, none ∉ sitesAll ts →
    sitesAll ((enumerateAll ts).run n).1 = sitesAll ts
  | [], _ => rfl
  | t :: ts, h => by
    have ht := sites_enumerate_marked n t fun hs => h (List.mem_append_left _ hs)
    have hts := sites_enumerateAll_marked (t.enumerate.run n).2 ts fun hs =>
      h (List.mem_append_right _ hs)
    show (t.enumerate.run n).1.sites ++ sitesAll ((enumerateAll ts).run (t.enumerate.run n).2).1 =
      t.sites ++ sitesAll ts
    rw [ht, hts]

end

mutual

/-- Sites are not written. -/
theorem writable_enumerate (n : Nat) : ∀ t : Term, t.Writable → (t.enumerate.run n).1.Writable
  | .seq items, h => writable_enumerateAll n items h
  | .arm _ r, h => writable_enumerate n r h
  | .leaf _ (some _) v, h => writable_enumerate n v h
  | .leaf _ none v, h => writable_enumerate (n + 1) v h
  | .node _ (some _) kids, h => writable_enumerateAll n kids h
  | .node _ none kids, h => writable_enumerateAll (n + 1) kids h
  | .signature _ _ _, _ => trivial
  | .nothing, h | .flag _, h | .number _, h | .text _, h | .dent _, h | .symbol _, h | .kind _, h => h

theorem writable_enumerateAll (n : Nat) : ∀ ts : List Term, WritableAll ts →
    WritableAll ((enumerateAll ts).run n).1
  | [], _ => trivial
  | t :: ts, h => ⟨writable_enumerate n t h.1, writable_enumerateAll _ ts h.2⟩

end

end Term

end Offside
