import Offside.Proofs.Token.Lossless
/-!
# Where a text literal ends

A text literal ends with the last mark on the line, not with the next one (`scan_literal`).  So there is at
most one of them on a line: if texts are written between marks with signs for comparison between them, the
line is cut into a single literal, which begins with the first text and ends with the last one, and the marks
and signs in the middle are a part of it (`tokens_comparison`).
-/

namespace Offside

namespace Lexer

/-! ## 1. The last mark

The end of a literal is searched for from the end of the line.  So what comes after the literal is a text
without marks, whatever is inside. -/

theorem lastMark?_eq_none {mark : Char} {cs : List Char} (h : mark ∉ cs) : lastMark? mark cs = none := by
  induction cs with
  | nil => rfl
  | cons c cs ih =>
    simp only [List.mem_cons, not_or] at h
    rw [lastMark?, ih h.2]
    exact if_neg (Ne.symm h.1)

/-- A text is split at a mark after which there is none. -/
theorem lastMark?_append {mark : Char} (a : List Char) {b : List Char} (h : mark ∉ b) :
    lastMark? mark (a ++ mark :: b) = some (a, b) := by
  induction a with
  | nil =>
    rw [List.nil_append, lastMark?, lastMark?_eq_none h]
    exact if_pos rfl
  | cons c a ih => rw [List.cons_append, lastMark?, ih]

/-- A text literal as it is written. -/
def literal (s : List Char) : List Char := '"' :: (s ++ ['"'])

/-- **A text literal reaches to the last mark.** -/
theorem scan_literal (a : List Char) {b : List Char} (h : '"' ∉ b) :
    scan (literal a ++ b) = some (.word .str (String.ofList a), b) := by
  have hbody : Ends Text.isBlank ('"' :: (a ++ '"' :: b)) := ends_cons rfl _
  have henclosed : enclosed? ('"' :: (a ++ '"' :: b)) = some (.word .str (String.ofList a), b) := by
    simp only [enclosed?, lastMark?_append a h]
    rfl
  have hline : literal a ++ b = spaces 0 ++ ('"' :: (a ++ '"' :: b)) := by
    simp [literal, spaces]
  rw [hline, scan_spaces 0 hbody, henclosed, comment?_eq_none (by decide) (by decide),
    number?_eq_none rfl]
  rfl

/-! ## 2. Literals that are compared

The marks at the ends of the line are those of the first and of the last literal.  Between them there are only
other characters of the line, so the whole line has the form of one literal, and it is cut as one. -/

/-- Text literals on one line, with a sign for comparison between any two. -/
def comparison (ss : List (List Char)) : List Char := " == ".toList.intercalate (ss.map literal)

/-- One token for each of the literals and for each of the signs. -/
def comparands (ss : List (List Char)) : List Term :=
  (ss.map fun s => .word .str (String.ofList s)).intersperse (.symbol "==")

/-- The texts with all that stands between them. -/
def runTogether (ss : List (List Char)) : List Char := "\" == \"".toList.intercalate ss

theorem runTogether_cons (s t : List Char) (ss : List (List Char)) :
    runTogether (s :: t :: ss) = s ++ ("\" == \"".toList ++ runTogether (t :: ss)) := by
  simp [runTogether]

/-- The whole line is written as one literal is. -/
theorem comparison_eq_literal (s : List Char) (ss : List (List Char)) :
    comparison (s :: ss) = literal (runTogether (s :: ss)) := by
  induction ss generalizing s with
  | nil => simp [comparison, runTogether]
  | cons t ss ih =>
    have hline : comparison (s :: t :: ss) = literal s ++ (" == ".toList ++ comparison (t :: ss)) := by
      simp [comparison]
    rw [hline, ih, runTogether_cons]
    simp [literal]

/-- Literals on one line, with signs between them, are one line. -/
theorem unbroken_runTogether {s : List Char} {ss : List (List Char)} (h : ∀ t ∈ s :: ss, Unbroken t) :
    Unbroken (runTogether (s :: ss)) := by
  induction ss generalizing s with
  | nil =>
    rw [runTogether, List.intercalate_singleton]
    exact h s List.mem_cons_self
  | cons t ss ih =>
    obtain ⟨hs, hss⟩ := List.forall_mem_cons.1 h
    have hbetween : Unbroken "\" == \"".toList := unbroken_of_all (by decide)
    rw [runTogether_cons]
    exact List.forall_mem_append.2 ⟨hs, List.forall_mem_append.2 ⟨hbetween, ih hss⟩⟩

theorem unbroken_literal {s : List Char} (h : Unbroken s) : Unbroken (literal s) :=
  List.forall_mem_cons.2 ⟨rfl, List.forall_mem_append.2 ⟨h, List.forall_mem_singleton.2 rfl⟩⟩

/-- A line that consists of one literal. -/
theorem tokens_literal {s : List Char} (h : Unbroken s) :
    tokens (String.ofList (literal s)) = .ok [.dent 0, .word .str (String.ofList s)] := by
  have hscan := scan_literal s (b := []) List.not_mem_nil
  rw [List.append_nil] at hscan
  exact tokens_of_line (unbroken_literal h) (.single hscan) (List.cons_ne_nil _ _)

/-- **Literals on one line run together.**  One or more texts are written on a line as literals, with signs
for comparison between them.  The line is cut into one literal, from the first mark to the last.  So the
tokens are one for each literal and each sign only if there is a single literal. -/
theorem tokens_comparison {s : List Char} {ss : List (List Char)} (h : ∀ t ∈ s :: ss, Unbroken t) :
    tokens (String.ofList (comparison (s :: ss))) =
      .ok [.dent 0, .word .str (String.ofList (runTogether (s :: ss)))] ∧
    (tokens (String.ofList (comparison (s :: ss))) = .ok (.dent 0 :: comparands (s :: ss)) ↔ ss = []) := by
  have htokens : tokens (String.ofList (comparison (s :: ss))) =
      .ok [.dent 0, .word .str (String.ofList (runTogether (s :: ss)))] := by
    rw [comparison_eq_literal]
    exact tokens_literal (unbroken_runTogether h)
  refine ⟨htokens, ?_⟩
  rw [htokens]
  constructor
  · intro heq
    cases ss with
    | nil => rfl
    | cons t ss =>
      -- there is a sign after the first literal, where the line has no token any more
      simp [comparands] at heq
  · rintro rfl
    simp [comparands, runTogether]

/-- Three literals, one of them with a sign and one with nothing in it. -/
theorem tokens_comparison_three :
    tokens "\"a\" == \"#\" == \"\"" = .ok [.dent 0, .word .str "a\" == \"#\" == \""] ∧
    tokens "\"a\" == \"#\" == \"\"" ≠ .ok (.dent 0 :: comparands [['a'], ['#'], []]) := by
  have hunbroken : ∀ t ∈ [['a'], ['#'], []], Unbroken t := by
    have hall : ∀ t ∈ [['a'], ['#'], []], (t.all fun c => !Text.isLineBreak c) = true := by decide
    intro t ht
    exact unbroken_of_all (hall t ht)
  have h := tokens_comparison hunbroken
  exact ⟨h.1, fun heq => List.cons_ne_nil _ _ (h.2.1 heq)⟩

/-- Two literals that are taken for one. -/
theorem tokens_two_literals :
    tokens "\"a\" == \"b\"" = .ok [.dent 0, .word .str "a\" == \"b"] ∧
    tokens "\"a\" == \"b\"" ≠ .ok [.dent 0, .word .str "a", .symbol "==", .word .str "b"] := by
  have hunbroken : Unbroken "a\" == \"b".toList := unbroken_of_all (by decide)
  have h : tokens "\"a\" == \"b\"" = .ok [.dent 0, .word .str "a\" == \"b"] := tokens_literal hunbroken
  refine ⟨h, ?_⟩
  rw [h]
  simp

end Lexer

end Offside
