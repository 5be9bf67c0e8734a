import Offside.Regex.Basic
/-!
# Runs of characters

The simple part of regular expressions: fixed characters and runs of characters that pass a test, one after the
other.  A search in such an expression tries a run at all of its lengths.  `tryRun` says so without a bound on
the rounds, along the characters that are left.

A run that is tried at its full length first is often taken whole (`WantsWhole`): if all that follows is content
with what it gets, or if what follows begins with a character that does not pass the test.
-/

namespace Offside

/-! ## 1. Tests

The tests of characters that come up in the tokens of the language, in terms of the functions that the lexer
uses. -/

namespace CharTest

/-- The character itself. -/
def just (c : Char) : CharTest := ⟨false, [.range c c], false⟩

def blank : CharTest := ⟨false, [.blank true], false⟩

def digit : CharTest := ⟨false, [.digit true], false⟩

/-- Any character of a line. -/
def inLine : CharTest := ⟨true, [.range '\n' '\n'], false⟩

theorem holds_range_self (c d : Char) : (SetItem.range c c).holds d = (c == d) := by
  rw [SetItem.holds, Bool.eq_iff_iff, Bool.and_eq_true, decide_eq_true_eq, decide_eq_true_eq, beq_iff_eq]
  constructor
  · rintro ⟨hcd, hdc⟩
    exact Char.le_antisymm hcd hdc
  · rintro rfl
    exact ⟨Char.le_refl c, Char.le_refl c⟩

theorem holds_just (c d : Char) : (just c).holds d = (c == d) := by
  simp [just, holds, holds_range_self]

theorem holds_blank (c : Char) : blank.holds c = Text.isBlank c := by
  simp [blank, holds, SetItem.holds]

theorem holds_digit (c : Char) : digit.holds c = Text.isDigit c := by
  simp [digit, holds, SetItem.holds]

theorem holds_inLine {c : Char} (h : c ≠ '\n') : inLine.holds c = true := by
  have hjust : inLine.holds c = !(just '\n').holds c := by
    simp [inLine, just, holds]
  rw [hjust, holds_just, beq_false_of_ne (Ne.symm h), Bool.not_false]

theorem holds_inLine_of_not_mem {c : Char} {cs : List Char} (h : '\n' ∉ c :: cs) : inLine.holds c = true :=
  holds_inLine fun hc => h (hc ▸ List.mem_cons_self)

end CharTest

namespace Regex

/-! ## 2. Moving over a text

A spot knows how many characters were read, the last of them, and those that are left.  `Spot.past` moves it
over several characters at once.  Fixed characters leave no choice: they are the next ones, or the search
ends. -/

/-- The spot after the characters `front`, with `rest` left. -/
def Spot.past (s : Spot) (front rest : List Char) : Spot :=
  { s with read := s.read + front.length, before := front.getLast?.or s.before, rest := rest }

theorem Spot.past_nil {s : Spot} {rest : List Char} (h : s.rest = rest) : s.past [] rest = s := by
  simp [Spot.past, ← h]

@[simp] theorem Spot.past_past (s : Spot) (a b rest rest' : List Char) :
    (s.past a rest).past b rest' = s.past (a ++ b) rest' := by
  simp [Spot.past, Nat.add_assoc, List.getLast?_append, Option.or_assoc]

@[simp] theorem Spot.rest_past (s : Spot) (a rest : List Char) : (s.past a rest).rest = rest := rfl

@[simp] theorem Spot.read_past (s : Spot) (a rest : List Char) : (s.past a rest).read = s.read + a.length := rfl

@[simp] theorem Spot.groups_past (s : Spot) (a rest : List Char) : (s.past a rest).groups = s.groups := rfl

theorem search_one_nil {s : Spot} (h : s.rest = []) (t : CharTest) (k : Goal) : (one t).search s k = none := by
  rw [search, h]

theorem search_one_cons {s : Spot} {c : Char} {rest : List Char} (h : s.rest = c :: rest) (t : CharTest)
    (k : Goal) : (one t).search s k = if t.holds c then k (s.past [c] rest) else none := by
  rw [search, h]
  rfl

/-- One expression after the other. -/
def row (es : List Regex) : Regex := es.foldr seq empty

theorem search_row_nil (s : Spot) (k : Goal) : (row []).search s k = k s := rfl

theorem search_row_cons (e : Regex) (es : List Regex) (s : Spot) (k : Goal) :
    (row (e :: es)).search s k = e.search s fun s' => (row es).search s' k := rfl

/-- The characters of a text, one after the other. -/
def fixed (cs : List Char) : List Regex := cs.map fun c => one (.just c)

/-- Fixed characters can only be the next ones. -/
theorem search_fixed (cs : List Char) (es : List Regex) (s : Spot) (k : Goal) :
    (row (fixed cs ++ es)).search s k =
      if cs.isPrefixOf s.rest then (row es).search (s.past cs (s.rest.drop cs.length)) k else none := by
  induction cs generalizing s with
  | nil => simp [fixed, Spot.past_nil]
  | cons c cs ih =>
    have hcons : (row (fixed (c :: cs) ++ es)).search s k =
        (one (.just c)).search s fun s' => (row (fixed cs ++ es)).search s' k := rfl
    rw [hcons]
    cases hrest : s.rest with
    | nil => simp [search_one_nil hrest]
    | cons d rest =>
      rw [search_one_cons hrest, CharTest.holds_just, List.isPrefixOf_cons_cons]
      by_cases hcd : c = d
      · subst hcd
        simp [ih]
      · simp [hcd]

theorem search_fixed_last (cs : List Char) (s : Spot) (k : Goal) :
    (row (fixed cs)).search s k =
      if cs.isPrefixOf s.rest then k (s.past cs (s.rest.drop cs.length)) else none := by
  simpa [search_row_nil] using search_fixed cs [] s k

/-! ## 3. Runs

A repetition is defined with a number of rounds that is enough, and with a check that a round has moved.  For
single characters neither matters, and what is left is a recursion along the characters (`tryRun`): at each of
them the run may end or go on, and which of the two is tried first is the only difference between the two
kinds of runs. -/

/-- A run of characters that pass a test, as long as possible or as short as possible. -/
def run (greedy : Bool) (t : CharTest) : Regex := rounds 0 none greedy (one t)

/-- Tries the lengths of a run of the characters that are left. -/
def tryRun (greedy : Bool) (t : CharTest) (k : Goal) : (left : List Char) → Spot → Option Spot
  | [], s => k s
  | c :: rest, s =>
    if t.holds c then
      if greedy then (tryRun greedy t k rest (s.past [c] rest)).or (k s)
      else (k s).or (tryRun greedy t k rest (s.past [c] rest))
    else k s

variable {t : CharTest} {k : Goal}

/-- To repeat the test of a character is to try runs of it.  Each round moves, so the bound on the rounds and
the check for a round that did not move never come into it. -/
theorem more_one (greedy : Bool) {n : Nat} {cs : List Char} {s : Spot} {last : Option Nat} (hs : s.rest = cs)
    (hn : cs.length < n) (hlast : last ≠ some s.read) :
    more (one t).search greedy n none last s k = tryRun greedy t k cs s := by
  induction cs generalizing n s last with
  | nil =>
    obtain ⟨n, rfl⟩ : ∃ m, n = m + 1 := ⟨n - 1, by omega⟩
    simp [more, hlast, search_one_nil hs, tryRun]
  | cons c cs ih =>
    obtain ⟨n, rfl⟩ : ∃ m, n = m + 1 := ⟨n - 1, by omega⟩
    have hmore : more (one t).search greedy n none (some s.read) (s.past [c] cs) k =
        tryRun greedy t k cs (s.past [c] cs) :=
      ih rfl (by simpa using hn) (by simp)
    by_cases hc : t.holds c = true
    · simp [more, hlast, search_one_cons hs, tryRun, hc, hmore]
    · simp [more, hlast, search_one_cons hs, tryRun, hc]

/-- **A search for a run tries its lengths.** -/
theorem search_run (greedy : Bool) (t : CharTest) (s : Spot) (k : Goal) :
    (run greedy t).search s k = tryRun greedy t k s.rest s :=
  more_one greedy rfl (by omega) (by simp)

/-- Where a run can go on, what follows does not want it to end there if it can have it longer. -/
def WantsWhole (t : CharTest) (k : Goal) : Prop :=
  ∀ s s' c rest, s.rest = c :: rest → t.holds c = true → (k s').or (k s) = k s'

/-- What is content with any length gets the whole run. -/
theorem wantsWhole_of_isSome (hk : ∀ s, (k s).isSome = true) : WantsWhole t k :=
  fun _ s' _ _ _ _ => Option.or_of_isSome (hk s')

/-- What begins with no character of the run gets the whole run. -/
theorem wantsWhole_of_refuses (hk : ∀ s c rest, s.rest = c :: rest → t.holds c = true → k s = none) :
    WantsWhole t k := by
  intro s s' c rest hs hc
  rw [hk s c rest hs hc, Option.or_none]

/-- If what follows wants the whole run, the longest run is the only one that can be the answer. -/
theorem tryRun_eq (hk : WantsWhole t k) {cs : List Char} {s : Spot} (hs : s.rest = cs) :
    tryRun true t k cs s = k (s.past (cs.takeWhile t.holds) (cs.dropWhile t.holds)) := by
  induction cs generalizing s with
  | nil => rw [tryRun, List.takeWhile_nil, List.dropWhile_nil, Spot.past_nil hs]
  | cons c cs ih =>
    by_cases hc : t.holds c = true
    · have hrest := ih (s := s.past [c] cs) rfl
      rw [tryRun, if_pos hc, if_pos rfl, hrest, hk s _ c cs hs hc, Spot.past_past,
        List.takeWhile_cons_of_pos hc, List.dropWhile_cons_of_pos hc, List.singleton_append]
    · rw [tryRun, if_neg hc, List.takeWhile_cons_of_neg hc, List.dropWhile_cons_of_neg hc, Spot.past_nil hs]

/-- A run that must not be empty. -/
theorem search_rounds_one (hk : WantsWhole t k) (s : Spot) :
    (rounds 1 none true (one t)).search s k =
      if (s.rest.takeWhile t.holds).isEmpty then none
      else k (s.past (s.rest.takeWhile t.holds) (s.rest.dropWhile t.holds)) := by
  have hfirst : (rounds 1 none true (one t)).search s k = (one t).search s fun s' => (run true t).search s' k := rfl
  rw [hfirst]
  cases hs : s.rest with
  | nil => simp [search_one_nil hs]
  | cons c cs =>
    rw [search_one_cons hs]
    by_cases hc : t.holds c = true
    · rw [if_pos hc, search_run, tryRun_eq hk rfl]
      simp [hc]
    · simp [hc]

end Regex

end Offside
