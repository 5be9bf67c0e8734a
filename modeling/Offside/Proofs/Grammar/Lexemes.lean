import Offside.Grammar.Basic
import Offside.Proofs.Regex.Runs
import Offside.Proofs.Token.Lossless
/-!
# Lexemes as functions that split a text

The lexer cuts tokens out of a line with functions of its own, and a grammar does it with regular expressions.
For each kind of token that has a text the two do the same on a line: the expression takes what the function
splits off at the front (`SplitsAs`), and with blanks before it the lexeme gives the token of that text and what
is left (`cut?_of_takes`).

Why the expression takes so much and no less depends on the kind.  A number stops at the first character that
is no digit, as what follows in the expression is no digit either.  A text between two marks goes to the last
mark, since it is tried at its full length first, and a comment that is closed goes to the first place where it
can be, since it is tried empty first.
-/

namespace Offside

open Regex

/-! ## 1. Expressions that split a line

A search goes from left to right with a continuation, and comes back to try less if that fails.  What makes an
expression the same as a function that splits a text is that the first try is the right one: either what
follows never fails (`SplitsAs` asks this of the continuation), or it fails at every other length
(`WantsWhole`). -/

/-- Splits off something at the front of a text. -/
abbrev Splitter := List Char → Option (List Char × List Char)

namespace Splitter

def nothing : Splitter := fun cs => some ([], cs)

/-- A run of characters that pass a test. -/
def run (t : CharTest) : Splitter := fun cs => some (cs.takeWhile t.holds, cs.dropWhile t.holds)

/-- The fixed characters `w`, and then what `f` splits off. -/
def fixed (w : List Char) (f : Splitter) : Splitter := fun cs =>
  if w.isPrefixOf cs then (f (cs.drop w.length)).map fun x => (w ++ x.1, x.2) else none

/-- A character that passes a test, and then what `f` splits off. -/
def one (t : CharTest) (f : Splitter) : Splitter
  | [] => none
  | c :: cs => if t.holds c then (f cs).map fun x => (c :: x.1, x.2) else none

/-- A run that must not be empty, and then what `f` splits off. -/
def rounds (t : CharTest) (f : Splitter) : Splitter := fun cs =>
  if (cs.takeWhile t.holds).isEmpty then none
  else (f (cs.dropWhile t.holds)).map fun x => (cs.takeWhile t.holds ++ x.1, x.2)

/-- The text between a mark and the last one of the same kind, without the marks. -/
def between (mark : Char) : Splitter
  | [] => none
  | c :: cs => if mark = c then Lexer.lastMark? mark cs else none

end Splitter

/-- In a line the expression takes what `f` splits off at the front, if all that follows is content with it. -/
structure Regex.SplitsAs (e : Regex) (f : Splitter) : Prop where
  search_eq : ∀ s k, '\n' ∉ s.rest → (∀ s', (k s').isSome = true) →
    e.search s k = (f s.rest).bind fun x => k (s.past x.1 x.2)
  eq_append : ∀ {cs a b}, f cs = some (a, b) → cs = a ++ b

namespace Regex.SplitsAs

variable {es : List Regex} {f : Splitter}

theorem bind_past (s : Spot) (a rest : List Char) (k : Goal) (x : Option (List Char × List Char)) :
    (x.bind fun y => k ((s.past a rest).past y.1 y.2)) =
      (x.map fun y => (a ++ y.1, y.2)).bind fun y => k (s.past y.1 y.2) := by
  cases x with
  | none => rfl
  | some y => rw [Option.map_some, Option.bind_some, Option.bind_some, Spot.past_past]

theorem nil : SplitsAs (row []) .nothing where
  search_eq := by
    intro s k _ _
    rw [search_row_nil, Splitter.nothing, Option.bind_some, Spot.past_nil rfl]
  eq_append := by
    rintro cs a b ⟨⟩
    rfl

theorem run (t : CharTest) : SplitsAs (row [.run true t]) (.run t) where
  search_eq := by
    intro s k hs hk
    have hsearch : (row [.run true t]).search s k = tryRun true t k s.rest s := search_run _ _ s k
    rw [hsearch, tryRun_eq (wantsWhole_of_isSome hk) rfl, Splitter.run, Option.bind_some]
  eq_append := by
    rintro cs a b ⟨⟩
    exact List.takeWhile_append_dropWhile.symm

/-- A fixed text at the front is there or it is not, so that there is only one way to go on. -/
theorem fixed (w : List Char) (h : SplitsAs (row es) f) : SplitsAs (row (Regex.fixed w ++ es)) (.fixed w f) where
  search_eq := by
    intro s k hs hk
    rw [search_fixed, Splitter.fixed]
    by_cases hw : w.isPrefixOf s.rest = true
    · have hdrop : '\n' ∉ s.rest.drop w.length := fun hc => hs (List.mem_of_mem_drop hc)
      rw [if_pos hw, if_pos hw, h.search_eq _ k hdrop hk]
      exact bind_past s w _ k _
    · rw [if_neg hw, if_neg hw, Option.bind_none]
  eq_append := by
    intro cs a b hab
    rw [Splitter.fixed] at hab
    split at hab
    · rename_i hw
      obtain ⟨rest, rfl⟩ := List.isPrefixOf_iff_prefix.1 hw
      obtain ⟨x, hx, hxab⟩ := Option.map_eq_some_iff.1 hab
      cases hxab
      rw [List.drop_left] at hx
      rw [List.append_assoc, ← h.eq_append hx]
    · cases hab

/-- One character at the front, likewise. -/
theorem one (t : CharTest) (h : SplitsAs (row es) f) : SplitsAs (row (.one t :: es)) (.one t f) where
  search_eq := by
    intro s k hs hk
    rw [search_row_cons]
    cases hrest : s.rest with
    | nil => simp [search_one_nil hrest, Splitter.one]
    | cons c cs =>
      rw [search_one_cons hrest, Splitter.one]
      have hcs : '\n' ∉ cs := fun hc => hs (hrest ▸ List.mem_cons_of_mem c hc)
      by_cases hc : t.holds c = true
      · rw [if_pos hc, if_pos hc, h.search_eq _ k hcs hk]
        exact bind_past s [c] cs k _
      · rw [if_neg hc, if_neg hc, Option.bind_none]
  eq_append := by
    intro cs a b hab
    cases cs with
    | nil => cases hab
    | cons c cs =>
      rw [Splitter.one] at hab
      split at hab
      · obtain ⟨x, hx, hxab⟩ := Option.map_eq_some_iff.1 hab
        cases hxab
        rw [List.cons_append, ← h.eq_append hx]
      · cases hab

/-- A run that must not be empty.  It is tried at its full length first, and at every shorter length what
follows would have to begin with a character of the run, which by hypothesis it cannot. -/
theorem rounds (t : CharTest) (h : SplitsAs (row es) f)
    (hes : ∀ k, (∀ s', (k s').isSome = true) → WantsWhole t fun s' => (row es).search s' k) :
    SplitsAs (row (.rounds 1 none true (.one t) :: es)) (.rounds t f) where
  search_eq := by
    intro s k hs hk
    have hdrop : '\n' ∉ s.rest.dropWhile t.holds := fun hc => hs ((List.dropWhile_sublist _).subset hc)
    rw [search_row_cons, search_rounds_one (hes k hk), Splitter.rounds]
    split
    · rfl
    · rw [h.search_eq _ k hdrop hk]
      exact bind_past s _ _ k _
  eq_append := by
    intro cs a b hab
    rw [Splitter.rounds] at hab
    split at hab
    · cases hab
    · obtain ⟨x, hx, hxab⟩ := Option.map_eq_some_iff.1 hab
      cases hxab
      rw [List.append_assoc, ← h.eq_append hx, List.takeWhile_append_dropWhile]

/-- A comment that is closed ends at the first place where it can.  It is tried empty first and gets longer by
one character each time, so the first mark that is met ends it; the function of the lexer looks for it in the
same order. -/
theorem close : SplitsAs (row (.run false .inLine :: Regex.fixed ['*', '/'])) Lexer.closeComment? where
  search_eq := by
    intro s k hs hk
    rw [search_row_cons, search_run]
    generalize hcs : s.rest = cs at hs
    fun_induction Lexer.closeComment? cs generalizing s with
    | case1 => simp [tryRun, search_fixed_last, hcs]
    | case2 rest =>
      have hstar : CharTest.inLine.holds '*' = true := rfl
      simp [tryRun, hstar, search_fixed_last, hcs, Option.or_of_isSome (hk _)]
    | case3 c rest hne ih =>
      have hc := CharTest.holds_inLine_of_not_mem hs
      have hprefix : ['*', '/'].isPrefixOf (c :: rest) = false := by
        rw [← Bool.not_eq_true, List.isPrefixOf_iff_prefix]
        rintro ⟨rest', hrest⟩
        cases hrest
        exact hne _ rfl rfl
      have hrest := ih (s.past [c] rest) rfl (List.not_mem_of_not_mem_cons hs)
      simp only [tryRun, hc, search_fixed_last, hcs, hprefix, if_true, Bool.false_eq_true, if_false, Option.none_or]
      simp only [search_fixed_last] at hrest
      rw [hrest]
      exact bind_past s [c] rest k _
  eq_append := fun h => (Lexer.closeComment?_eq h).1

end Regex.SplitsAs

/-! ## 2. Groups

The token is made of the text of a group: the first one, around the whole expression, or the second one,
without the marks. `Takes` says which, and that the expression does not begin with a blank, without which it
could not be said how many blanks are skipped before it. -/

namespace Regex

/-- The expression begins with a character that passes the test. -/
def Begins (t : CharTest) (e : Regex) : Prop := ∀ s k, ∃ k', e.search s k = (one t).search s k'

theorem Begins.search_eq_none {t : CharTest} {e : Regex} (h : Begins t e) {s : Spot} {c : Char} {rest : List Char}
    (hs : s.rest = c :: rest) (hc : t.holds c = false) (k : Goal) : e.search s k = none := by
  obtain ⟨k', hk'⟩ := h s k
  rw [hk', search_one_cons hs, hc]
  rfl

theorem begins_one (t : CharTest) (es : List Regex) : Begins t (row (one t :: es)) :=
  fun _ k => ⟨fun s' => (row es).search s' k, rfl⟩

theorem begins_rounds (t : CharTest) (es : List Regex) : Begins t (row (rounds 1 none true (one t) :: es)) :=
  fun _ k => ⟨fun s' => (run true t).search s' fun s'' => (row es).search s'' k, rfl⟩

theorem begins_fixed (c : Char) (w : List Char) (es : List Regex) : Begins (.just c) (row (fixed (c :: w) ++ es)) :=
  begins_one _ (fixed w ++ es)

theorem holds_just_of_isBlank {c d : Char} (hc : Text.isBlank c = false) (hd : Text.isBlank d = true) :
    (CharTest.just c).holds d = false := by
  rw [CharTest.holds_just]
  refine beq_false_of_ne ?_
  rintro rfl
  rw [hd] at hc
  cases hc

/-- What a search from `s` finds, if group `i` should remember a text then, with some of the line left. -/
inductive Finds (i : Nat) (s : Spot) : Option (List Char × List Char) → Option Spot → Prop where
  | nothing : Finds i s none none
  | spot {s' : Spot} {a b : List Char} (hgroup : s'.group? i = some a) (hrest : b <:+ s.rest)
      (hread : s'.read + b.length = s.read + s.rest.length) : Finds i s (some (a, b)) (some s')

/-- In a line the expression, as the first group, takes the text that `f` gives as that of group `i`.  It takes
nothing that begins with a blank. -/
structure Takes (i : Nat) (e : Regex) (f : Splitter) : Prop where
  pos : 0 < i
  finds : ∀ s, '\n' ∉ s.rest → s.groups = [] → Finds i s (f s.rest) ((group 1 e).search s some)
  refuses : ∀ s k c rest, s.rest = c :: rest → Text.isBlank c = true → e.search s k = none

/-- An expression that splits a text in one way is taken after the blanks: it cannot begin with one, so the
blanks before it are all passed over. -/
theorem takes_of_splitsAs {t : CharTest} {e : Regex} {f : Splitter} (h : SplitsAs e f) (hbegins : Begins t e)
    (ht : ∀ c, Text.isBlank c = true → t.holds c = false) : Takes 1 e f where
  pos := Nat.one_pos
  finds := by
    intro s hs hgroups
    have hsearch : (group 1 e).search s some = (f s.rest).bind fun x => some ((s.past x.1 x.2).remember 1 s) :=
      h.search_eq s (fun s' => some (s'.remember 1 s)) hs fun _ => rfl
    rw [hsearch]
    cases hf : f s.rest with
    | none => exact .nothing
    | some x =>
      obtain ⟨a, b⟩ := x
      have hrest := h.eq_append hf
      refine .spot ?_ ⟨a, hrest.symm⟩ ?_
      · simp [Spot.group?, Spot.remember, hrest]
      · simp [Spot.remember, hrest, Nat.add_assoc]
  refuses := fun _ k c _ hs hc => hbegins.search_eq_none hs (ht c hc) k

theorem takes_fixed {c : Char} (hc : Text.isBlank c = false) (w : List Char) {es : List Regex} {f : Splitter}
    (h : SplitsAs (row es) f) : Takes 1 (row (fixed (c :: w) ++ es)) (.fixed (c :: w) f) :=
  takes_of_splitsAs (.fixed _ h) (begins_fixed c w es) fun _ => holds_just_of_isBlank hc

/-- If what follows must begin with a mark, the run goes to the last mark.  The induction is on the line.  If
there is a mark further on, the longer run is tried first and succeeds; if not, all longer ones fail and it is
left to see whether the run can stop here. -/
theorem tryRun_lastMark {mark : Char} {k : Goal} (hend : ∀ s, s.rest = [] → k s = none)
    (hmark : ∀ s rest, s.rest = mark :: rest → (k s).isSome = true)
    (hother : ∀ s c rest, s.rest = c :: rest → c ≠ mark → k s = none) {cs : List Char} (hcs : '\n' ∉ cs)
    {s : Spot} (hs : s.rest = cs) :
    tryRun true .inLine k cs s = (Lexer.lastMark? mark cs).bind fun x => k (s.past x.1 (mark :: x.2)) := by
  induction cs generalizing s with
  | nil => rw [tryRun, hend s hs, Lexer.lastMark?, Option.bind_none]
  | cons c cs ih =>
    have hc := CharTest.holds_inLine_of_not_mem hcs
    have hrest := ih (List.not_mem_of_not_mem_cons hcs) (s := s.past [c] cs) rfl
    rw [tryRun, if_pos hc, if_pos rfl, hrest, Lexer.lastMark?]
    cases Lexer.lastMark? mark cs with
    | some x =>
      rw [Option.bind_some, Option.or_of_isSome (hmark _ x.2 rfl), Spot.past_past]
      rfl
    | none =>
      rw [Option.bind_none, Option.none_or]
      by_cases hne : c = mark
      · subst hne
        rw [if_pos rfl, Option.bind_some, Spot.past_nil hs]
      · rw [if_neg hne, Option.bind_none, hother s c cs hs hne]

/-- A text between two marks, which the second group remembers. -/
def enclosed (mark : Char) : Regex :=
  row (fixed [mark] ++ group 2 (row [run true .inLine]) :: fixed [mark])

/-- What comes after a text that begins at `t`, in a lexeme that begins at `s`: the second mark. -/
def closing (mark : Char) (s t : Spot) : Goal := fun s' =>
  (row (fixed [mark])).search (s'.remember 2 t) fun s'' => some (s''.remember 1 s)

theorem closing_eq (mark : Char) (s t s' : Spot) :
    closing mark s t s' =
      if [mark].isPrefixOf s'.rest then some (((s'.remember 2 t).past [mark] (s'.rest.drop 1)).remember 1 s)
      else none :=
  search_fixed_last _ _ _

theorem tryRun_closing (mark : Char) (s t : Spot) (ht : '\n' ∉ t.rest) :
    tryRun true .inLine (closing mark s t) t.rest t =
      (Lexer.lastMark? mark t.rest).bind fun x => closing mark s t (t.past x.1 (mark :: x.2)) := by
  refine tryRun_lastMark (fun s' h => ?_) (fun s' rest h => ?_) (fun s' c rest h hne => ?_) ht rfl
  · simp [closing_eq, h]
  · simp [closing_eq, h]
  · simp [closing_eq, h, hne.symm]

/-- After the second mark the second group remembers the text. -/
theorem finds_closing {mark : Char} {s : Spot} {a b : List Char} (hs : s.rest = mark :: (a ++ mark :: b))
    (hgroups : s.groups = []) :
    Finds 2 s (some (a, b))
      (closing mark s (s.past [mark] (a ++ mark :: b)) ((s.past [mark] (a ++ mark :: b)).past a (mark :: b))) := by
  have hlength : s.read + (a.length + 1) - (s.read + 1) = a.length := by omega
  rw [closing_eq]
  simp only [Spot.rest_past, List.isPrefixOf_cons_cons, beq_self_eq_true, List.isPrefixOf_nil_left, Bool.and_self,
    if_true]
  refine .spot ?_ ⟨mark :: a ++ [mark], ?_⟩ ?_
  · simp only [Spot.group?, Spot.remember, Spot.groups_past, Spot.read_past, Spot.rest_past, hgroups,
      List.length_singleton, Nat.add_assoc, Nat.add_comm 1 a.length, hlength]
    exact congrArg some List.take_left
  · simp [hs]
  · simp [Spot.remember, hs]
    omega

/-- A text between two marks.  The run of characters in between is as long as possible, and so it ends at the
last mark of the line. -/
theorem takes_enclosed {mark : Char} (hmark : Text.isBlank mark = false) :
    Takes 2 (enclosed mark) (.between mark) where
  pos := Nat.two_pos
  finds := by
    intro s hs hgroups
    have hsearch : (group 1 (enclosed mark)).search s some =
        (one (.just mark)).search s fun t => (run true .inLine).search t (closing mark s t) := rfl
    rw [hsearch]
    cases hrest : s.rest with
    | nil =>
      rw [search_one_nil hrest]
      exact .nothing
    | cons c cs =>
      rw [hrest] at hs
      rw [search_one_cons hrest, CharTest.holds_just, Splitter.between]
      by_cases hc : mark = c
      · subst hc
        rw [if_pos (beq_self_eq_true mark), if_pos rfl, search_run,
          tryRun_closing mark s _ (List.not_mem_of_not_mem_cons hs), Spot.rest_past]
        cases hlast : Lexer.lastMark? mark cs with
        | none => exact .nothing
        | some x =>
          obtain ⟨a, b⟩ := x
          obtain rfl := Lexer.lastMark?_eq hlast
          exact finds_closing hrest hgroups
      · have hbeq : ¬ (mark == c) = true := by simpa using hc
        rw [if_neg hbeq, if_neg hc]
        exact .nothing
  refuses := by
    intro s k c rest hs hc
    have hbegins := begins_fixed mark [] (group 2 (row [run true .inLine]) :: fixed [mark])
    exact hbegins.search_eq_none hs (holds_just_of_isBlank hmark hc) k

/-! ## 3. Lexemes

Every lexeme of the language skips blanks and keeps what comes after them in a group.  The blanks are a run
that gives characters back if what follows refuses.  But what follows takes no blank at its start and could
not use them, so all blanks are skipped. -/

/-- An expression with blanks before it. -/
def afterBlanks (e : Regex) : Regex := row [run true .blank, group 1 e]

theorem search_afterBlanks (e : Regex) (cs : List Char) :
    e.afterBlanks.search (.atStart cs) some =
      tryRun true .blank (fun s => (group 1 e).search s some) cs (.atStart cs) :=
  search_run _ _ _ _

/-- All blanks are skipped before an expression that takes none at its start.  If fewer were skipped the
expression would have to begin with a blank. -/
theorem search_afterBlanks_of_takes {i : Nat} {e : Regex} {f : Splitter} (h : Takes i e f) (cs : List Char) :
    e.afterBlanks.search (.atStart cs) some =
      (group 1 e).search ((Spot.atStart cs).past (cs.takeWhile Text.isBlank) (cs.dropWhile Text.isBlank)) some := by
  have hblank : CharTest.blank.holds = Text.isBlank := funext CharTest.holds_blank
  have hrefuses : ∀ s c rest, s.rest = c :: rest → CharTest.blank.holds c = true →
      (group 1 e).search s some = none :=
    fun s c rest hs hc => h.refuses s _ c rest hs (CharTest.holds_blank c ▸ hc)
  have hrest : (Spot.atStart cs).rest = cs := rfl
  rw [search_afterBlanks, tryRun_eq (wantsWhole_of_refuses hrefuses) hrest, hblank]

end Regex

namespace RegexLexeme

/-- The token that a lexeme makes of the start of a text, and what is left of the text. -/
def cut? (l : RegexLexeme) (cs : List Char) : Option (Term × List Char) :=
  (l.lexeme.matcher cs).bind fun f => (l.lexeme.token f).toOption.map fun t => (t, cs.drop f.length)

theorem cut?_eq (l : RegexLexeme) (cs : List Char) :
    l.cut? cs = (l.pattern.matchStart? cs).bind fun found =>
      (if l.keepsText then l.maker.make (found.toMatch l.pattern).lastGroup
        else .ok l.maker.bare).toOption.map fun t => (t, cs.drop found.length) :=
  Option.bind_map

/-- The last group of a match is the one that was opened last. -/
theorem lastGroup_toMatch {p : Pattern} (hp : 0 < p.groups) (found : Pattern.Found) :
    (found.toMatch p).lastGroup = (found.groups.lookup p.groups).map String.ofList := by
  obtain ⟨k, hk⟩ := Nat.exists_eq_succ_of_ne_zero (Nat.ne_of_gt hp)
  simp [Match.lastGroup, Pattern.Found.toMatch, hk, List.range_succ]

/-- **A lexeme cuts as its expression splits**, after the blanks. -/
theorem cut?_of_takes {l : RegexLexeme} {e : Regex} {f : Splitter} (make : String → Term)
    (he : l.pattern.tree = e.afterBlanks) (hf : Takes l.pattern.groups e f)
    (hmake : ∀ a, (if l.keepsText then l.maker.make (some a) else .ok l.maker.bare) = .ok (make a))
    {cs : List Char} (hcs : '\n' ∉ cs) :
    l.cut? cs = (f (cs.dropWhile Text.isBlank)).map fun x => (make (String.ofList x.1), x.2) := by
  have hsuffix : cs.dropWhile Text.isBlank <:+ cs := List.dropWhile_suffix _
  have hlength := congrArg List.length (List.takeWhile_append_dropWhile (p := Text.isBlank) (l := cs))
  rw [List.length_append] at hlength
  have hfinds := hf.finds ((Spot.atStart cs).past (cs.takeWhile Text.isBlank) (cs.dropWhile Text.isBlank))
    (fun h => hcs (hsuffix.subset h)) rfl
  rw [cut?_eq, Pattern.matchStart?, he, search_afterBlanks_of_takes hf]
  rw [Spot.rest_past] at hfinds
  generalize (group 1 e).search _ some = r at hfinds ⊢
  generalize f (cs.dropWhile Text.isBlank) = x at hfinds ⊢
  cases hfinds with
  | nothing => rfl
  | @spot s' a b hgroup hrest hread =>
    have hdrop : cs.drop s'.read = b := by
      simp only [Spot.rest_past, Spot.read_past, Spot.atStart, Nat.zero_add, hlength] at hread
      rw [List.suffix_iff_eq_drop.1 (hrest.trans hsuffix), ← hread, Nat.add_sub_cancel]
    have htext : (s'.groups.lookup l.pattern.groups).map String.ofList = some (String.ofList a) :=
      congrArg (Option.map String.ofList) hgroup
    simp only [Option.map_some, Option.bind_some, lastGroup_toMatch hf.pos, htext, hmake, hdrop]
    rfl

/-! ## 4. Signs

One sign of the language begins with a blank, the point between two blanks.  Before it the blanks are not
simply skipped: the last one belongs to the sign. -/

/-- The lexeme of a sign of the language. -/
def sign (s : String) : RegexLexeme :=
  ⟨true, escaped s, ⟨(row (fixed s.toList)).afterBlanks, 1, []⟩, .symbol s, false⟩

/-- A sign that begins with a blank takes the last of the blanks before it: it cannot begin earlier, as its second
character is no blank. -/
theorem read_tryRun_blank {c d : Char} (hc : Text.isBlank c = true) (hd : Text.isBlank d = false) {w : List Char}
    {k : Goal} (hk : ∀ s, (k s).map (·.read) =
      if (c :: d :: w).isPrefixOf s.rest then some (s.read + (c :: d :: w).length) else none)
    {cs : List Char} {s : Spot} (hs : s.rest = cs) :
    (tryRun true .blank k cs s).map (·.read) =
      if (cs.takeWhile Text.isBlank).getLast? = some c ∧ (d :: w).isPrefixOf (cs.dropWhile Text.isBlank) then
        some (s.read + (cs.takeWhile Text.isBlank).length + (d :: w).length)
      else none := by
  induction cs generalizing s with
  | nil => simp [tryRun, hk, hs]
  | cons x cs ih =>
    by_cases hx : Text.isBlank x = true
    · have hstep : (tryRun true .blank k (x :: cs) s).map (·.read) =
          ((tryRun true .blank k cs (s.past [x] cs)).map (·.read)).or ((k s).map (·.read)) := by
        rw [tryRun, if_pos (CharTest.holds_blank x ▸ hx), if_pos rfl, Option.map_or]
      rw [hstep, ih rfl, hk, hs]
      cases cs with
      | nil => simp [hx]
      | cons y cs =>
        by_cases hy : Text.isBlank y = true
        · have hdy : d ≠ y := by
            rintro rfl
            rw [hy] at hd
            cases hd
          simp [hx, hy, hdy, Nat.add_assoc, Nat.add_comm 1]
        · simp [hx, hy, eq_comm (a := x) (b := c), Nat.add_assoc, Nat.add_comm 1]
    · have hcx : c ≠ x := by
        rintro rfl
        exact hx hc
      simp [tryRun, CharTest.holds_blank, hx, hk, hs, hcx]

theorem cut?_sign_eq (s : String) (cs : List Char) :
    (sign s).cut? cs = (((row (fixed s.toList)).afterBlanks.search (.atStart cs) some).map (·.read)).map
      fun n => (.symbol s, cs.drop n) := by
  have htree : (sign s).pattern.tree = (row (fixed s.toList)).afterBlanks := rfl
  rw [cut?_eq, Pattern.matchStart?, htree]
  cases (row (fixed s.toList)).afterBlanks.search (.atStart cs) some <;> rfl

theorem drop_length_takeWhile (p : Char → Bool) (cs : List Char) (n : Nat) :
    cs.drop ((cs.takeWhile p).length + n) = (cs.dropWhile p).drop n := by
  have hleft : (cs.takeWhile p ++ cs.dropWhile p).drop (cs.takeWhile p).length = cs.dropWhile p := List.drop_left
  rw [List.takeWhile_append_dropWhile] at hleft
  rw [← List.drop_drop, hleft]

/-- A sign that begins with a blank.  The search gives the run of blanks back one at a time, and it fits with
the first that it gives back if at all. -/
theorem cut?_sign_blank {s : String} {c d : Char} {w : List Char} (hs : s.toList = c :: d :: w)
    (hc : Text.isBlank c = true) (hd : Text.isBlank d = false) (cs : List Char) :
    (sign s).cut? cs =
      (Lexer.afterSign? (cs.takeWhile Text.isBlank) (cs.dropWhile Text.isBlank) (c :: d :: w)).map
        fun rest => (.symbol s, rest) := by
  have hk : ∀ s', ((group 1 (row (fixed (c :: d :: w)))).search s' some).map (·.read) =
      if (c :: d :: w).isPrefixOf s'.rest then some (s'.read + (c :: d :: w).length) else none := by
    intro s'
    have hsearch := search_fixed_last (c :: d :: w) s' fun s'' => some (s''.remember 1 s')
    rw [search, hsearch]
    split <;> rfl
  have hrest : (Spot.atStart cs).rest = cs := rfl
  have hzero : (Spot.atStart cs).read = 0 := rfl
  rw [cut?_sign_eq, hs, search_afterBlanks, read_tryRun_blank hc hd hk hrest, Lexer.afterSign?, if_pos hc]
  simp [hzero, drop_length_takeWhile, apply_ite]

/-- **The lexeme of a sign cuts as the lexer does**, if one of the first two characters is no blank. -/
theorem cut?_sign {s : String} (hs : (s.toList.take 2).any (!Text.isBlank ·) = true) {cs : List Char}
    (hcs : '\n' ∉ cs) :
    (sign s).cut? cs =
      (Lexer.afterSign? (cs.takeWhile Text.isBlank) (cs.dropWhile Text.isBlank) s.toList).map
        fun rest => (.symbol s, rest) := by
  cases hw : s.toList with
  | nil => simp [hw] at hs
  | cons c w =>
    by_cases hc : Text.isBlank c = true
    · rw [hw, List.take_succ_cons, List.any_cons, hc] at hs
      cases w with
      | nil => cases hs
      | cons d w =>
        refine cut?_sign_blank hw hc ?_ cs
        simpa using hs
    · have htakes := takes_fixed (Bool.of_not_eq_true hc) w .nil
      rw [List.append_nil, ← hw] at htakes
      rw [cut?_of_takes (fun _ => .symbol s) rfl htakes (fun _ => rfl) hcs, hw, Splitter.fixed,
        Lexer.afterSign?, if_neg hc]
      split <;> rfl

end RegexLexeme

end Offside
