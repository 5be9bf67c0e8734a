import Offside.Regex.Reader
/-!
# How far a match extends

A search only moves forward, and what it has read and what is left are the whole text at any time
(`Spot.Reaches`).  So a match takes no more than there is (`matchStart?_length_le`).  What a group remembers
is a part of the text too (`infix_of_lookup`), though not always of the match, since a group may look ahead.

A search hands the spots that it comes to on to a goal.  What is to be shown is therefore said of these
spots, not of the answer: if there is an answer, the goal gave it at a spot that the search can come to
(`Follows`).  How a search comes to a spot is said once, for every relation that each single move keeps to
(`follows_search`).
-/

namespace Offside

namespace Regex

/-! ## 1. The moves of a search

A search is written with continuations, and so an induction on the expression cannot speak of where the search
ends.  It speaks of the goal instead: an answer is an answer of the goal at some spot, and this spot is
related to the first one.  The relation is left open; all that is asked of it is that it is kept by single
moves and that it is transitive (`Traces`). -/

/-- Answers come from spots that are related to the start. -/
def Follows (R : Spot → Spot → Prop) (body : Spot → Goal → Option Spot) : Prop :=
  ∀ {s : Spot} {k : Goal} {s' : Spot}, body s k = some s' → ∃ t, R s t ∧ k t = some s'

/-- A relation that each move keeps to: over one character, over a text that a group remembers, to the end of
a group, and back from looking ahead. -/
structure Traces (R : Spot → Spot → Prop) : Prop where
  refl : ∀ s, R s s
  trans : ∀ {s t u}, R s t → R t u → R s u
  one : ∀ {s : Spot} {c rest}, s.rest = c :: rest →
    R s { s with read := s.read + 1, before := some c, rest := rest }
  again : ∀ (s : Spot) (n : Nat) (before : Option Char), n ≤ s.rest.length →
    R s { s with read := s.read + n, before := before, rest := s.rest.drop n }
  group : ∀ {s t : Spot}, R s t → ∀ i, R s (t.remember i s)
  ahead : ∀ {s t : Spot}, R s t → R s { s with groups := t.groups }

variable {R : Spot → Spot → Prop}

/-- So many rounds, one after the other. -/
theorem Follows.times (hR : Traces R) {body : Spot → Goal → Option Spot} (hbody : Follows R body) (n : Nat) :
    Follows R (times body n) := by
  induction n with
  | zero =>
    intro s k s' h
    exact ⟨s, hR.refl s, h⟩
  | succ n ih =>
    intro s k s' h
    obtain ⟨t, hst, h⟩ := hbody h
    obtain ⟨u, htu, h⟩ := ih h
    exact ⟨u, hR.trans hst htu, h⟩

/-- Further rounds are tried as long as they are allowed and each takes some text.  Whichever of them the
answer comes from, it was reached by going through the body so many times. -/
theorem Follows.more (hR : Traces R) {body : Spot → Goal → Option Spot} (hbody : Follows R body)
    (greedy : Bool) (n : Nat) (extra last : Option Nat) : Follows R (more body greedy n extra last) := by
  induction n generalizing extra last with
  | zero =>
    intro s k s' h
    exact ⟨s, hR.refl s, h⟩
  | succ n ih =>
    intro s k s' h
    -- one more round, and the rounds after it
    have hround : ∀ {last' : Option Nat},
        (body s fun t => Regex.more body greedy n (extra.map (· - 1)) last' t k) = some s' →
        ∃ t, R s t ∧ k t = some s' := by
      intro last' h
      obtain ⟨t, hst, h⟩ := hbody h
      obtain ⟨u, htu, h⟩ := ih _ _ h
      exact ⟨u, hR.trans hst htu, h⟩
    simp only [Regex.more] at h
    split at h
    · exact ⟨s, hR.refl s, h⟩
    · split at h
      · rcases Option.or_eq_some_iff.1 (Option.orElse_eq_or.symm.trans h) with h | ⟨-, h⟩
        · exact hround h
        · exact ⟨s, hR.refl s, h⟩
      · rcases Option.or_eq_some_iff.1 (Option.orElse_eq_or.symm.trans h) with h | ⟨-, h⟩
        · exact ⟨s, hR.refl s, h⟩
        · exact hround h

theorem length_eq_of_sameText {fold : Bool} {a b : List Char} (h : sameText fold a b = true) :
    a.length = b.length := by
  unfold sameText at h
  split at h
  · simpa using congrArg List.length (eq_of_beq h)
  · exact congrArg List.length (eq_of_beq h)

/-! One lemma for each kind of expression.  Where a body is searched for with a goal of its own, as in looking
ahead, the answer is the spot that the body came to, and the search goes on from there or from the start. -/

/-- A test of the place where the search is: it goes on from there or not at all. -/
theorem follows_place (hR : Traces R) (test : Spot → Prop) [DecidablePred test] :
    Follows R fun s k => if test s then k s else none := by
  intro s k s' h
  obtain ⟨-, h⟩ := Option.ite_none_right_eq_some.1 h
  exact ⟨s, hR.refl s, h⟩

/-- One character is one move. -/
theorem follows_one (hR : Traces R) (test : CharTest) : Follows R (one test).search := by
  intro s k s' h
  simp only [search] at h
  split at h
  · cases h
  · rename_i c rest hrest
    split at h
    · exact ⟨_, hR.one hrest, h⟩
    · cases h

/-- What a group remembers is taken again only if there is as much left. -/
theorem follows_again (hR : Traces R) (i : Nat) (fold : Bool) : Follows R (again i fold).search := by
  intro s k s' h
  simp only [search] at h
  split at h
  · cases h
  · split at h
    · rename_i t _ hsame
      have hlength := length_eq_of_sameText hsame
      rw [List.length_take] at hlength
      exact ⟨_, hR.again s t.length _ (by omega), h⟩
    · cases h

theorem Follows.seq (hR : Traces R) {a b : Regex} (ha : Follows R a.search) (hb : Follows R b.search) :
    Follows R (seq a b).search := by
  intro s k s' h
  obtain ⟨t, hst, h⟩ := ha h
  obtain ⟨u, htu, h⟩ := hb h
  exact ⟨u, hR.trans hst htu, h⟩

theorem Follows.alt {a b : Regex} (ha : Follows R a.search) (hb : Follows R b.search) :
    Follows R (alt a b).search := by
  intro s k s' h
  rcases Option.or_eq_some_iff.1 (Option.orElse_eq_or.symm.trans h) with h | ⟨-, h⟩
  · exact ha h
  · exact hb h

theorem Follows.group (hR : Traces R) {a : Regex} (ha : Follows R a.search) (i : Nat) :
    Follows R (group i a).search := by
  intro s k s' h
  obtain ⟨t, hst, h⟩ := ha h
  exact ⟨t.remember i s, hR.group hst i, h⟩

/-- The answer of a search on its own is a spot that it comes to. -/
theorem Follows.related {a : Regex} (ha : Follows R a.search) {s t : Spot} (h : a.search s some = some t) :
    R s t := by
  obtain ⟨u, hsu, hu⟩ := ha h
  obtain rfl := Option.some.inj hu
  exact hsu

/-- Looking ahead does not move.  Where the body was to match, what its groups have kept stays; where it was
not, nothing does. -/
theorem Follows.ahead (hR : Traces R) {a : Regex} (ha : Follows R a.search) (inside : Bool) :
    Follows R (ahead inside a).search := by
  intro s k s' h
  simp only [search] at h
  split at h
  · rename_i t ht
    obtain ⟨-, h⟩ := Option.ite_none_right_eq_some.1 h
    exact ⟨_, hR.ahead (ha.related ht), h⟩
  · obtain ⟨-, h⟩ := Option.ite_none_left_eq_some.1 h
    exact ⟨s, hR.refl s, h⟩

theorem Follows.once {a : Regex} (ha : Follows R a.search) : Follows R (once a).search := by
  intro s k s' h
  obtain ⟨t, ht, h⟩ := Option.bind_eq_some_iff.1 h
  exact ⟨t, ha.related ht, h⟩

theorem Follows.rounds (hR : Traces R) {a : Regex} (ha : Follows R a.search) (least : Nat)
    (extra : Option Nat) (greedy : Bool) : Follows R (rounds least extra greedy a).search := by
  intro s k s' h
  obtain ⟨t, hst, h⟩ := ha.times hR least h
  obtain ⟨u, htu, h⟩ := ha.more hR greedy _ extra none h
  exact ⟨u, hR.trans hst htu, h⟩

/-- **A search comes to spots by its moves only.**  The induction is on the expression, and the relation is
any that the single moves keep to; what follows about extents takes two of them. -/
theorem follows_search (hR : Traces R) (r : Regex) : Follows R r.search := by
  induction r with
  | empty =>
    intro s k s' h
    exact ⟨s, hR.refl s, h⟩
  | one test => exact follows_one hR test
  | start => exact follows_place hR fun s => s.read = 0
  | finish beforeBreak =>
    exact follows_place hR fun s => s.rest.isEmpty || beforeBreak && s.rest == ['\n']
  | wordEdge inside =>
    exact follows_place hR fun s =>
      (s.before.any Text.isWordChar != s.rest.head?.any Text.isWordChar) == inside &&
        !(s.before.isNone && s.rest.isEmpty)
  | seq a b iha ihb => exact iha.seq hR ihb
  | alt a b iha ihb => exact iha.alt ihb
  | group i a ih => exact ih.group hR i
  | again i fold => exact follows_again hR i fold
  | ahead inside a ih => exact ih.ahead hR inside
  | once a ih => exact ih.once
  | rounds least extra greedy a ih => exact ih.rounds hR least extra greedy

/-! ## 2. Forward moves

The first of the two relations: a search only moves forward, by as many characters as are no longer left. -/

/-- The second spot is further on in the same text. -/
structure Spot.Reaches (s t : Spot) : Prop where
  read_le : s.read ≤ t.read
  whole : t.read + t.rest.length = s.read + s.rest.length

theorem Spot.Reaches.trans {s t u : Spot} (h : s.Reaches t) (h' : t.Reaches u) : s.Reaches u :=
  ⟨Nat.le_trans h.read_le h'.read_le, h'.whole.trans h.whole⟩

/-- A move over a character or a text that is taken again goes forward by as much as is taken; the end of a
group and looking ahead do not move at all. -/
theorem traces_reaches : Traces Spot.Reaches where
  refl _ := ⟨Nat.le_refl _, rfl⟩
  trans := .trans
  one {s c rest} h := by
    refine ⟨Nat.le_succ _, ?_⟩
    simp only [h, List.length_cons]
    omega
  again s n before h := by
    refine ⟨Nat.le_add_right _ _, ?_⟩
    simp only [List.length_drop]
    omega
  group h _ := ⟨h.read_le, h.whole⟩
  ahead _ := ⟨Nat.le_refl _, rfl⟩

/-! ## 3. Inside of the text

With the relation that what is left is an end of the text, and that the groups remember parts of it, the
general statement gives both results of this file. -/

/-- What is left is the end of the text, and what the groups remember are parts of it. -/
structure Spot.Within (text : List Char) (s : Spot) : Prop where
  rest : s.rest <:+ text
  groups : ∀ g ∈ s.groups, g.2 <:+: text

/-- What is left gets shorter from the front, and what a group remembers lies between two spots of the same
text. -/
theorem traces_within (text : List Char) : Traces fun s t => s.Within text → t.Within text where
  refl _ := id
  trans h h' hs := h' (h hs)
  one {s c rest} h hs := ⟨(h ▸ List.suffix_cons c rest : rest <:+ s.rest).trans hs.rest, hs.groups⟩
  again s n _ _ hs := ⟨(List.drop_suffix n s.rest).trans hs.rest, hs.groups⟩
  group {s t} h i hs := by
    have ht := h hs
    refine ⟨ht.rest, List.forall_mem_cons.2 ⟨?_, fun g hg => ht.groups g (List.mem_filter.1 hg).1⟩⟩
    exact (List.take_prefix _ s.rest).isInfix.trans hs.rest.isInfix
  ahead h hs := ⟨hs.rest, (h hs).groups⟩

end Regex

namespace Pattern

open Regex (Spot)

/-- A match takes no more than there is. -/
theorem matchStart?_length_le {p : Pattern} {text : List Char} {f : Pattern.Found}
    (h : p.matchStart? text = some f) : f.length ≤ text.length := by
  obtain ⟨s, hs, rfl⟩ := Option.map_eq_some_iff.1 h
  obtain ⟨t, ht, he⟩ := Regex.follows_search Regex.traces_reaches p.tree hs
  obtain rfl := Option.some.inj he
  calc t.read ≤ t.read + t.rest.length := Nat.le_add_right _ _
    _ = 0 + text.length := ht.whole
    _ = text.length := Nat.zero_add _

/-- What a group remembers is a part of the text. -/
theorem infix_of_lookup {p : Pattern} {text : List Char} {f : Pattern.Found}
    (h : p.matchStart? text = some f) {i : Nat} {cs : List Char} (hi : f.groups.lookup i = some cs) :
    cs <:+: text := by
  obtain ⟨s, hs, rfl⟩ := Option.map_eq_some_iff.1 h
  obtain ⟨t, ht, he⟩ := Regex.follows_search (Regex.traces_within text) p.tree hs
  obtain rfl := Option.some.inj he
  have hstart : (Spot.atStart text).Within text := ⟨List.suffix_refl text, List.forall_mem_nil _⟩
  have hlookup : t.groups.lookup i = some cs := hi
  obtain ⟨before, after, hsplit, -⟩ := List.lookup_eq_some_iff.1 hlookup
  exact (ht hstart).groups (i, cs) (by simp [hsplit])

end Pattern

end Offside
