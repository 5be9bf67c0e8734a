import Offside.Proofs.Token.Lossless
/-!
# Texts are cut into tokens line by line

If two texts are put together with a line break between them, the whole is cut into the tokens of the first
one and then those of the second one, and it cannot be cut if one of the two cannot.  A text that cannot be
cut fails in the same way whatever is put after it (`tokens_across_break`).

At the seam the lines need not be those of the two texts in a row.  The break between them may end the last
line of the first text, or it may come after a break and leave an empty line; it may be the second half of a
break that the first text ends with, or the first half of one that the second text goes on with.  But all
this is only about empty lines (`exists_lines_across`), and these have no tokens.  They do count in the
numbers of the lines after them, so the lines of the first text keep their numbers and those of the second
one get others, on which only the words of an error depend (`numberedLines_solid`).
-/

namespace Offside

namespace Lexer

/-! ## 1. The lines at a seam

Lines are compared up to empty ones, as these have no tokens.  A break is one character, or two that belong
together; at a seam such a pair may be put together from two parts, or be split between the text and the
break. -/

/-- The lines that are not empty. -/
def solid (ls : List (List Char)) : List (List Char) := ls.filter fun l => !l.isEmpty

theorem solid_nil_cons (ls : List (List Char)) : solid ([] :: ls) = solid ls := rfl

theorem solid_cons {l : List Char} (hl : l ≠ []) (ls : List (List Char)) :
    solid (l :: ls) = l :: solid ls := by
  simp [solid, hl]

/-- A break that is no half of a longer one ends a line. -/
theorem lines_break {c : Char} (hc : Text.isLineBreak c = true) {rest : List Char}
    (hpair : c = '\r' → rest.head? ≠ some '\n') : Text.lines (c :: rest) = [] :: Text.lines rest := by
  rw [Text.lines]
  · rw [if_pos hc]
  · rintro rest' hc rfl
    exact hpair hc rfl

theorem lines_pair (rest : List Char) :
    Text.lines ('\r' :: '\n' :: rest) = [] :: Text.lines rest := by
  rw [Text.lines]

/-- A break before a text ends an empty line.  If it takes in a break at the start of the text, the text has
an empty line less: this is so if the break is the first half of a longer one and the text begins with the
other half. -/
theorem exists_lines_break {b : List Char} (hb : IsBreak b) (text : List Char) :
    ∃ ls, Text.lines (b ++ text) = [] :: ls ∧ solid ls = solid (Text.lines text) := by
  rcases hb with rfl | ⟨c, hc, rfl⟩
  · exact ⟨_, lines_pair text, rfl⟩
  by_cases hpair : c = '\r' ∧ text.head? = some '\n'
  · obtain ⟨rfl, hhead⟩ := hpair
    obtain ⟨text, rfl⟩ := List.head?_eq_some_iff.1 hhead
    refine ⟨_, lines_pair text, ?_⟩
    have hfeed : ('\n' : Char) ≠ '\r' := by decide
    rw [lines_break rfl fun h => absurd h hfeed, solid_nil_cons]
  · exact ⟨_, lines_break hc fun hr hn => hpair ⟨hr, hn⟩, rfl⟩

/-- **The lines across a seam** are those of the first text and then, but for empty ones, those of the second.
By induction along the lines of the first text.  Its last line may go on up to the break; and it may end with
half a break, of which the break at the seam is the other half. -/
theorem exists_lines_across (a : List Char) {b : List Char} (hb : IsBreak b) (text : List Char) :
    ∃ ls, Text.lines (a ++ (b ++ text)) = Text.lines a ++ ls ∧ solid ls = solid (Text.lines text) := by
  obtain ⟨after, hafter, hsolid⟩ := exists_lines_break hb text
  fun_induction Text.lines a with
  | case1 => exact ⟨[] :: after, hafter, hsolid⟩
  | case2 rest ih =>
    obtain ⟨ls, hls, h⟩ := ih
    exact ⟨ls, by rw [List.cons_append, List.cons_append, lines_pair, hls, List.cons_append], h⟩
  | case3 c rest hrest hc ih =>
    by_cases hpair : c = '\r' ∧ (rest ++ (b ++ text)).head? = some '\n'
    · -- the first text ends with half a break, and the break at the seam is the other half
      obtain ⟨rfl, hhead⟩ := hpair
      have hrest : rest = [] := by
        cases rest with
        | nil => rfl
        | cons d rest =>
          obtain rfl : d = '\n' := Option.some.inj hhead
          exact (hrest rest rfl rfl).elim
      subst hrest
      have hb : b = ['\n'] := by
        rcases hb with rfl | ⟨d, -, rfl⟩
        · exact absurd (Option.some.inj hhead) (by decide)
        · exact congrArg ([·]) (Option.some.inj hhead)
      subst hb
      exact ⟨Text.lines text, lines_pair text, rfl⟩
    · obtain ⟨ls, hls, h⟩ := ih
      refine ⟨ls, ?_, h⟩
      rw [List.cons_append, lines_break hc fun hr hn => hpair ⟨hr, hn⟩, hls, List.cons_append]
  | case4 c rest hrest hc hlines ih =>
    have hrest := broken_lines rest
    rw [hlines] at hrest
    cases hrest
    refine ⟨after, ?_, hsolid⟩
    rw [List.cons_append, List.nil_append, lines_cons (Bool.eq_false_iff.2 hc), hafter]
    rfl
  | case5 c rest hrest hc l ls hlines ih =>
    obtain ⟨ls', hls, h⟩ := ih
    refine ⟨ls', ?_, h⟩
    rw [List.cons_append, lines_cons (Bool.eq_false_iff.2 hc), hls, hlines]
    rfl

/-! ## 2. Numbers of lines

An empty line is skipped but counted.  So to leave out empty lines is to change the numbers of those that
follow, and a number shows only in the error of its line. -/

/-- The number of a line shows in errors only. -/
theorem line_renumber {n m : Nat} {l : List Char} {ts : List Term} (h : line n l = .ok ts) :
    line m l = .ok ts := by
  unfold line at h ⊢
  split at h
  · cases h
  · exact h
  · cases h

/-- Lines can be read if the first one can and the others can. -/
theorem numberedLines_cons_eq_ok_iff {n : Nat} {l : List Char} (hl : l ≠ []) {ls : List (List Char)}
    {ts : List Term} :
    numberedLines n (l :: ls) = .ok ts ↔
      ∃ us vs, line n l = .ok us ∧ numberedLines (n + 1) ls = .ok vs ∧ ts = us ++ vs := by
  rw [numberedLines_cons n hl]
  constructor
  · intro h
    obtain ⟨us, hus, h⟩ := ok_of_bind h
    obtain ⟨vs, hvs, h⟩ := ok_of_bind h
    exact ⟨us, vs, hus, hvs, (Except.ok.inj h).symm⟩
  · rintro ⟨us, vs, hus, hvs, rfl⟩
    rw [hus, hvs]
    rfl

/-- What lines are cut into depends neither on their numbers nor on the empty ones among them. -/
theorem numberedLines_solid {n m : Nat} {ls : List (List Char)} {ts : List Term} :
    numberedLines n ls = .ok ts ↔ numberedLines m (solid ls) = .ok ts := by
  induction ls generalizing n m ts with
  | nil => exact Iff.rfl
  | cons l ls ih =>
    by_cases hl : l = []
    · subst hl
      rw [solid_nil_cons, numberedLines]
      exact ih
    · rw [solid_cons hl, numberedLines_cons_eq_ok_iff hl, numberedLines_cons_eq_ok_iff hl]
      constructor
      · rintro ⟨us, vs, hus, hvs, rfl⟩
        exact ⟨us, vs, line_renumber hus, ih.1 hvs, rfl⟩
      · rintro ⟨us, vs, hus, hvs, rfl⟩
        exact ⟨us, vs, line_renumber hus, ih.2 hvs, rfl⟩

theorem numberedLines_renumber {n m : Nat} {ls : List (List Char)} {ts : List Term}
    (h : numberedLines n ls = .ok ts) : numberedLines m ls = .ok ts :=
  numberedLines_solid.2 ((numberedLines_solid (m := m)).1 h)

/-! ## 3. Texts put together

Lines are read in order up to the first that fails.  If that is a line of the first text, it has the number
that it has there, and so the error is the same. -/

/-- **Texts are cut line by line.**  A text is put together of two with a break between them, of whatever
kind, and whatever the first one ends with and the second one begins with.  It can be cut into tokens
exactly if both can, and then it is cut into the tokens of the first one and those of the second one.  If
the first one cannot be cut, the whole fails with the very same error. -/
theorem tokens_across_break (a b : String) {br : List Char} (hbr : IsBreak br) :
    (∀ ts, tokens (a ++ String.ofList br ++ b) = .ok ts ↔
      ∃ us vs, tokens a = .ok us ∧ tokens b = .ok vs ∧ ts = us ++ vs) ∧
    ∀ e, tokens a = .error e → tokens (a ++ String.ofList br ++ b) = .error e := by
  obtain ⟨ls, hls, hsolid⟩ := exists_lines_across a.toList hbr b.toList
  have hall : tokens (a ++ String.ofList br ++ b) = (tokens a).bind fun us =>
      (numberedLines (1 + (Text.lines a.toList).length) ls).bind fun vs => .ok (us ++ vs) := by
    rw [tokens, String.toList_append, String.toList_append, String.toList_ofList, List.append_assoc, hls,
      numberedLines_append_eq]
    rfl
  have hrest : ∀ vs, numberedLines (1 + (Text.lines a.toList).length) ls = .ok vs ↔ tokens b = .ok vs := by
    intro vs
    rw [numberedLines_solid (m := 1), hsolid]
    exact numberedLines_solid.symm
  rw [hall]
  refine ⟨fun ts => ⟨fun h => ?_, ?_⟩, ?_⟩
  · obtain ⟨us, hus, h⟩ := ok_of_bind h
    obtain ⟨vs, hvs, h⟩ := ok_of_bind h
    exact ⟨us, vs, hus, (hrest vs).1 hvs, (Except.ok.inj h).symm⟩
  · rintro ⟨us, vs, hus, hvs, rfl⟩
    rw [hus, (hrest vs).2 hvs]
    rfl
  · intro e he
    rw [he]
    rfl

theorem scanAll_of_scan {cs : List Char} (h : scan cs = none) : scanAll cs = ([], cs) := by
  rw [scanAll]
  split
  · rfl
  · rename_i hsome
    rw [h] at hsome
    cases hsome

/-- The seam is in the middle of a break, and the second text begins with a break too.  In the second case
the error is on line 3, after an empty one. -/
theorem tokens_across_break_halves :
    tokens ("x\n\r" ++ String.ofList ['\n'] ++ "\n  y") =
      .ok [.dent 0, .word .id "x", .dent 2, .word .id "y"] ∧
    tokens ("x\n\ny ?" ++ String.ofList ['\r'] ++ "\nz") = .error (.badLine 3 "y ?" 1) := by
  have hx : Cuts ['x'] [.word .id "x"] [] := .single rfl
  have hy : Cuts "  y".toList [.word .id "y"] [] := .single rfl
  have hfirst : tokens "x\n\r" = .ok [.dent 0, .word .id "x"] := by
    have hlines : Text.lines "x\n\r".toList = [['x'], []] := by decide
    rw [tokens, hlines, numberedLines_cons 1 (by decide), line_of_cuts hx (by decide)]
    rfl
  have hsecond : tokens "\n  y" = .ok [.dent 2, .word .id "y"] := by
    have hlines : Text.lines "\n  y".toList = [[], "  y".toList] := by decide
    rw [tokens, hlines, numberedLines, numberedLines_cons 2 (by decide), line_of_cuts hy (by decide)]
    rfl
  have hbad : tokens "x\n\ny ?" = .error (.badLine 3 "y ?" 1) := by
    have hlines : Text.lines "x\n\ny ?".toList = [['x'], [], "y ?".toList] := by decide
    have hcut : Cuts "y ?".toList [.word .id "y"] " ?".toList := .single rfl
    have hline : line 3 "y ?".toList = .error (.badLine 3 "y ?" 1) := by
      have hrest : scanAll " ?".toList = ([], " ?".toList) := scanAll_of_scan rfl
      unfold Cuts at hcut
      rw [line, hcut, hrest]
      rfl
    rw [tokens, hlines, numberedLines_cons 1 (by decide), line_of_cuts hx (by decide), numberedLines,
      numberedLines_cons 3 (by decide), hline]
    rfl
  have hfeed : IsBreak ['\n'] := .inr ⟨'\n', rfl, rfl⟩
  have hreturn : IsBreak ['\r'] := .inr ⟨'\r', rfl, rfl⟩
  exact ⟨((tokens_across_break "x\n\r" "\n  y" hfeed).1 _).2 ⟨_, _, hfirst, hsecond, rfl⟩,
    (tokens_across_break "x\n\ny ?" "\nz" hreturn).2 _ hbad⟩

end Lexer

end Offside
