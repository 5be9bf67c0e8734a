import Offside.Proofs.Regex.Extent
/-!
# How much a match takes at least

The width of a regular expression is read off its shape: a character counts one, a place counts nothing, of
two alternatives the narrower one counts, and a repetition counts as many rounds as it has to make.  No match
is shorter (`width_le_length`).  So an expression whose width is not 0 never matches without taking some text,
wherever it is tried.

A group that is referred to again, and what is looked ahead for, count nothing.
-/

namespace Offside

namespace Regex

/-- The least number of characters that a match takes. -/
def width : Regex → Nat
  | one _ => 1
  | seq a b => a.width + b.width
  | alt a b => min a.width b.width
  | group _ a => a.width
  | once a => a.width
  | rounds least _ _ a => least * a.width
  | empty | start | finish _ | wordEdge _ | again _ _ | ahead _ _ => 0

/-- The second spot is at least `n` characters further on. -/
def Spot.Passes (n : Nat) (s t : Spot) : Prop := s.read + n ≤ t.read

/-- No search goes back. -/
theorem passes_zero_search (r : Regex) : Follows (Spot.Passes 0) r.search := by
  intro s k s' h
  obtain ⟨t, hst, h⟩ := follows_search traces_reaches r h
  exact ⟨t, hst.read_le, h⟩

/-- So many rounds pass so many times the width of one. -/
theorem passes_times {n : Nat} {body : Spot → Goal → Option Spot} (hbody : Follows (Spot.Passes n) body)
    (m : Nat) : Follows (Spot.Passes (m * n)) (times body m) := by
  induction m with
  | zero =>
    intro s k s' h
    exact ⟨s, by simp [Spot.Passes], h⟩
  | succ m ih =>
    intro s k s' h
    obtain ⟨t, hst, h⟩ := hbody h
    obtain ⟨u, htu, h⟩ := ih h
    refine ⟨u, ?_, h⟩
    simp only [Spot.Passes, Nat.succ_mul] at *
    omega

/-- **A search passes at least the width.**  The induction is on the expression.  Of two expressions in a row
the widths add up; of two alternatives one is taken; a repetition makes its least number of rounds first, and
rounds beyond that do not go back. -/
theorem passes_width_search (r : Regex) : Follows (Spot.Passes r.width) r.search := by
  induction r with
  | one test =>
    intro s k s' h
    simp only [search] at h
    split at h
    · cases h
    · split at h
      · exact ⟨_, Nat.le_refl _, h⟩
      · cases h
  | seq a b iha ihb =>
    intro s k s' h
    obtain ⟨t, hst, h⟩ := iha h
    obtain ⟨u, htu, h⟩ := ihb h
    refine ⟨u, ?_, h⟩
    simp only [Spot.Passes, width] at *
    omega
  | alt a b iha ihb =>
    intro s k s' h
    rcases Option.or_eq_some_iff.1 (Option.orElse_eq_or.symm.trans h) with h | ⟨-, h⟩
    · obtain ⟨t, hst, h⟩ := iha h
      exact ⟨t, Nat.le_trans (Nat.add_le_add_left (Nat.min_le_left _ _) _) hst, h⟩
    · obtain ⟨t, hst, h⟩ := ihb h
      exact ⟨t, Nat.le_trans (Nat.add_le_add_left (Nat.min_le_right _ _) _) hst, h⟩
  | group i a ih =>
    intro s k s' h
    obtain ⟨t, hst, h⟩ := ih h
    exact ⟨t.remember i s, hst, h⟩
  | once a ih =>
    intro s k s' h
    obtain ⟨t, ht, h⟩ := Option.bind_eq_some_iff.1 h
    obtain ⟨u, hsu, hu⟩ := ih ht
    obtain rfl := Option.some.inj hu
    exact ⟨u, hsu, h⟩
  | rounds least extra greedy a ih =>
    intro s k s' h
    obtain ⟨t, hst, h⟩ := passes_times ih least h
    obtain ⟨u, htu, h⟩ := Follows.more traces_reaches (follows_search traces_reaches a) greedy _ extra none h
    exact ⟨u, Nat.le_trans hst htu.read_le, h⟩
  | empty => exact passes_zero_search empty
  | start => exact passes_zero_search start
  | finish beforeBreak => exact passes_zero_search (finish beforeBreak)
  | wordEdge inside => exact passes_zero_search (wordEdge inside)
  | again i fold => exact passes_zero_search (again i fold)
  | ahead inside a => exact passes_zero_search (ahead inside a)

end Regex

namespace Pattern

/-- No match is shorter than the width. -/
theorem width_le_length {p : Pattern} {text : List Char} {f : Pattern.Found}
    (h : p.matchStart? text = some f) : p.tree.width ≤ f.length := by
  obtain ⟨s, hs, rfl⟩ := Option.map_eq_some_iff.1 h
  obtain ⟨t, ht, he⟩ := Regex.passes_width_search p.tree hs
  obtain rfl := Option.some.inj he
  simpa [Regex.Spot.Passes, Regex.Spot.atStart] using ht

end Pattern

end Offside
