import Offside.Proofs.Sequencing
import Offside.Proofs.Token.Spelling
/-!
# Nothing is lost between the tokens

A text that can be cut into tokens consists of them: each of its lines is the spellings of the tokens in
their order, with nothing but blanks before each (`Spaced`).  The spelling of a token is found from the
token alone (`spelling`), so the lines can be written again from the tokens, up to the blanks.

A token takes the blanks before it, with one exception: the sign that begins with a space takes the last
of them for itself, and is spelled with it.

A line of blanks only has no token and is refused, so the column of a line that is cut into tokens is
always the number of blanks at its start, although that is not what the depth of a line of blanks is.
-/

namespace Offside

namespace Lexer

/-! ## 1. Tokens and their spellings

The text of a token is what stands between its marks if it has any, so to spell the token is to put the marks
back.  Every spelling has a character that is not blank. -/

/-- How a token is spelled in a text: between two marks, or as it is. -/
def spelling : Term → List Char
  | .leaf (.word .str) _ (.text s) => '"' :: (s.toList ++ ['"'])
  | .leaf (.word .shellCmd) _ (.text s) => '\x60' :: (s.toList ++ ['\x60'])
  | .leaf (.word .regEx) _ (.text s) => '/' :: (s.toList ++ ['/'])
  | .leaf (.word _) _ (.text s) => s.toList
  | .text s => s.toList
  | .symbol s => s.toList
  | _ => []

/-- The tokens that a line is cut into. -/
inductive IsToken : Term → Prop where
  | int {ds : List Char} (hne : ds ≠ []) (h : ∀ c ∈ ds, Text.isDigit c = true) :
      IsToken (.word .int (String.ofList ds))
  | decimal {ds es : List Char} (hne : ds ≠ []) (h : ∀ c ∈ ds, Text.isDigit c = true)
      (h' : ∀ c ∈ es, Text.isDigit c = true) : IsToken (.text (String.ofList (ds ++ '.' :: es)))
  | enclosed {mark : Char} {w : Word} (h : marked? mark = some w) (cs : List Char) :
      IsToken (.word w (String.ofList cs))
  | hashComment (cs : List Char) : IsToken (.word .comment (String.ofList ('#' :: cs)))
  | slashComment (cs : List Char) : IsToken (.word .comment (String.ofList ('/' :: '/' :: cs)))
  | starComment (cs : List Char) :
      IsToken (.word .comment (String.ofList ('/' :: '*' :: (cs ++ ['*', '/']))))
  | sign {s : String} (h : s ∈ OperatorTable.signs) : IsToken (.symbol s)
  | name {c : Char} {cs : List Char} (h : startsName c = true) (h' : ∀ d ∈ cs, inName d = true) :
      IsToken (.word .id (String.ofList (c :: cs)))

/-- The kind of an enclosed token tells its mark. -/
theorem spelling_enclosed {mark : Char} {w : Word} (h : marked? mark = some w) (cs : List Char) :
    spelling (.word w (String.ofList cs)) = mark :: (cs ++ [mark]) := by
  unfold marked? at h
  split at h
  · obtain rfl := Option.some.inj h
    simp only [Term.word, spelling, String.toList_ofList]
  · obtain rfl := Option.some.inj h
    simp only [Term.word, spelling, String.toList_ofList]
  · obtain rfl := Option.some.inj h
    simp only [Term.word, spelling, String.toList_ofList]
  · cases h

theorem signs_not_blank : ∀ s ∈ OperatorTable.signs,
    (s.toList.any fun c => !Text.isBlank c) = true := by
  decide

/-- No token is spelled with blanks only. -/
theorem IsToken.exists_not_blank {t : Term} (h : IsToken t) :
    ∃ c ∈ spelling t, Text.isBlank c = false := by
  cases h with
  | @int ds hne hds =>
    obtain ⟨d, ds, rfl⟩ := List.exists_cons_of_ne_nil hne
    exact ⟨d, by simp [spelling, Term.word], isBlank_of_isDigit (hds d List.mem_cons_self)⟩
  | decimal => exact ⟨'.', by simp [spelling], rfl⟩
  | @enclosed mark w hm cs =>
    refine ⟨mark, by simp [spelling_enclosed hm], ?_⟩
    unfold marked? at hm
    split at hm
    · rfl
    · rfl
    · rfl
    · cases hm
  | hashComment => exact ⟨'#', by simp [spelling, Term.word], rfl⟩
  | slashComment => exact ⟨'/', by simp [spelling, Term.word], rfl⟩
  | starComment => exact ⟨'/', by simp [spelling, Term.word], rfl⟩
  | @sign s hs =>
    obtain ⟨c, hc, hblank⟩ := List.any_eq_true.1 (signs_not_blank s hs)
    exact ⟨c, hc, by simpa using hblank⟩
  | @name c cs hc =>
    exact ⟨c, by simp [spelling, Term.word], isBlank_of_inName (inName_of_startsName hc)⟩

/-! ## 2. What each kind of token takes

For each kind the text that it was taken from is the spelling of the token and what is left.  The marks of an
enclosed token are not in the token; they are known from its kind. -/

/-- A comment that is closed ends with its closing sign. -/
theorem closeComment?_eq {cs a b : List Char} (h : closeComment? cs = some (a, b)) :
    cs = a ++ b ∧ ∃ a', a = a' ++ ['*', '/'] := by
  fun_induction closeComment? cs generalizing a b with
  | case1 => cases h
  | case2 rest =>
    obtain ⟨rfl, rfl⟩ := Prod.mk.inj (Option.some.inj h)
    exact ⟨rfl, [], rfl⟩
  | case3 c rest _ ih =>
    obtain ⟨⟨a₁, b₁⟩, h₁, he⟩ := Option.map_eq_some_iff.1 h
    obtain ⟨rfl, rfl⟩ := Prod.mk.inj he
    obtain ⟨rfl, a', rfl⟩ := ih h₁
    exact ⟨rfl, c :: a', rfl⟩

/-- The text is split at a mark; that it is the last one is not needed here. -/
theorem lastMark?_eq {mark : Char} {cs a b : List Char} (h : lastMark? mark cs = some (a, b)) :
    cs = a ++ mark :: b := by
  fun_induction lastMark? mark cs generalizing a b with
  | case1 => cases h
  | case2 c rest a' b' h' ih =>
    obtain ⟨rfl, rfl⟩ := Prod.mk.inj (Option.some.inj h)
    rw [ih h', List.cons_append]
  | case3 rest h' ih =>
    obtain ⟨rfl, rfl⟩ := Prod.mk.inj (Option.some.inj h)
    rfl
  | case4 => cases h

/-- A comment is spelled as it stands. -/
theorem comment?_eq_spelling {cs r : List Char} {t : Term} (h : comment? cs = some (t, r)) :
    IsToken t ∧ cs = spelling t ++ r := by
  unfold comment? at h
  split at h
  · obtain ⟨rfl, rfl⟩ := Prod.mk.inj (Option.some.inj h)
    exact ⟨.hashComment _, by simp [spelling, Term.word]⟩
  · obtain ⟨⟨a, b⟩, h', he⟩ := Option.map_eq_some_iff.1 h
    obtain ⟨rfl, rfl⟩ := Prod.mk.inj he
    obtain ⟨rfl, a', rfl⟩ := closeComment?_eq h'
    exact ⟨.starComment a', by simp [spelling, Term.word]⟩
  · obtain ⟨rfl, rfl⟩ := Prod.mk.inj (Option.some.inj h)
    exact ⟨.slashComment _, by simp [spelling, Term.word]⟩
  · cases h

/-- A number is its digits, and if a point follows, the point and the digits after it, of which there may be
none. -/
theorem number?_eq_spelling {cs r : List Char} {t : Term} (h : number? cs = some (t, r)) :
    IsToken t ∧ cs = spelling t ++ r := by
  have hall : ∀ cs : List Char, ∀ c ∈ cs.takeWhile Text.isDigit, Text.isDigit c = true :=
    fun _ => List.all_eq_true.1 List.all_takeWhile
  have hcs : cs = cs.takeWhile Text.isDigit ++ cs.dropWhile Text.isDigit :=
    List.takeWhile_append_dropWhile.symm
  simp only [number?] at h
  split at h
  · cases h
  · rename_i hne
    have hne : cs.takeWhile Text.isDigit ≠ [] := by simpa using hne
    split at h
    · rename_i rest hrest
      obtain ⟨rfl, rfl⟩ := Prod.mk.inj (Option.some.inj h)
      refine ⟨.decimal hne (hall cs) (hall rest), ?_⟩
      simp only [spelling, String.toList_ofList, List.append_assoc, List.cons_append,
        List.takeWhile_append_dropWhile]
      rw [← hrest, ← hcs]
    · obtain ⟨rfl, rfl⟩ := Prod.mk.inj (Option.some.inj h)
      refine ⟨.int hne (hall cs), ?_⟩
      simp only [Term.word, spelling, String.toList_ofList]
      exact hcs

/-- An enclosed text lies between its marks. -/
theorem enclosed?_eq_spelling {cs r : List Char} {t : Term} (h : enclosed? cs = some (t, r)) :
    IsToken t ∧ cs = spelling t ++ r := by
  cases cs with
  | nil => cases h
  | cons c rest =>
    simp only [enclosed?] at h
    obtain ⟨w, hw, h⟩ := Option.bind_eq_some_iff.1 h
    obtain ⟨⟨a, b⟩, hmark, he⟩ := Option.map_eq_some_iff.1 h
    obtain ⟨rfl, rfl⟩ := Prod.mk.inj he
    refine ⟨.enclosed hw a, ?_⟩
    rw [spelling_enclosed hw, lastMark?_eq hmark]
    simp

/-- A name is a run of its characters. -/
theorem name?_eq_spelling {cs r : List Char} {t : Term} (h : name? cs = some (t, r)) :
    IsToken t ∧ cs = spelling t ++ r := by
  cases cs with
  | nil => cases h
  | cons c rest =>
    simp only [name?] at h
    split at h
    · rename_i hc
      obtain ⟨rfl, rfl⟩ := Prod.mk.inj (Option.some.inj h)
      refine ⟨.name hc (List.all_eq_true.1 List.all_takeWhile), ?_⟩
      simp only [Term.word, spelling, String.toList_ofList, List.cons_append,
        List.takeWhile_append_dropWhile]
    · cases h

/-- What a sign takes.  A sign that begins with a blank is spelled with the last of the blanks before it,
which is then not one of those that are passed over. -/
theorem afterSign?_eq {gap body sign r : List Char} (h : afterSign? gap body sign = some r) :
    ∃ gap', gap' <+: gap ∧ gap ++ body = gap' ++ (sign ++ r) := by
  cases sign with
  | nil => cases h
  | cons c sign =>
    simp only [afterSign?] at h
    split at h
    · split at h
      · rename_i hg
        simp only [Bool.and_eq_true, decide_eq_true_eq] at hg
        obtain ⟨hlast, hp⟩ := hg
        obtain ⟨r', rfl⟩ := List.isPrefixOf_iff_prefix.1 hp
        obtain ⟨gap', rfl⟩ := List.getLast?_eq_some_iff.1 hlast
        rw [List.drop_left] at h
        obtain rfl := Option.some.inj h
        exact ⟨gap', List.prefix_append _ _, by simp⟩
      · cases h
    · split at h
      · rename_i hp
        obtain ⟨r', rfl⟩ := List.isPrefixOf_iff_prefix.1 hp
        rw [List.drop_left' (by simp)] at h
        obtain rfl := Option.some.inj h
        exact ⟨gap, List.prefix_refl _, rfl⟩
      · cases h

theorem operator?_eq_spelling {gap body r : List Char} {t : Term}
    (h : operator? OperatorTable.signs gap body = some (t, r)) :
    IsToken t ∧ ∃ gap', gap' <+: gap ∧ gap ++ body = gap' ++ (spelling t ++ r) := by
  obtain ⟨s, hs, h⟩ := List.exists_of_findSome?_eq_some h
  obtain ⟨rest, h', he⟩ := Option.map_eq_some_iff.1 h
  obtain ⟨rfl, rfl⟩ := Prod.mk.inj he
  exact ⟨.sign hs, afterSign?_eq h'⟩

/-- **A token takes blanks and its spelling.**  All kinds but signs are looked for after the last blank.  A
sign may begin with that blank, and then what is passed over is the rest of them. -/
theorem scan_eq_spelling {cs r : List Char} {t : Term} (h : scan cs = some (t, r)) :
    IsToken t ∧ ∃ gap, (∀ c ∈ gap, Text.isBlank c = true) ∧ cs = gap ++ (spelling t ++ r) := by
  have hblank : ∀ c ∈ cs.takeWhile Text.isBlank, Text.isBlank c = true :=
    List.all_eq_true.1 List.all_takeWhile
  have hcs : cs.takeWhile Text.isBlank ++ cs.dropWhile Text.isBlank = cs :=
    List.takeWhile_append_dropWhile
  -- all but signs begin after the last blank
  have hafter : IsToken t ∧ cs.dropWhile Text.isBlank = spelling t ++ r →
      IsToken t ∧ ∃ gap, (∀ c ∈ gap, Text.isBlank c = true) ∧ cs = gap ++ (spelling t ++ r) := by
    rintro ⟨ht, hbody⟩
    rw [hbody] at hcs
    exact ⟨ht, _, hblank, hcs.symm⟩
  simp only [scan, Option.orElse_eq_orElse, Option.orElse_eq_or, Option.or_eq_some_iff] at h
  rcases h with h | ⟨-, h | ⟨-, h | ⟨-, h | ⟨-, h⟩⟩⟩⟩
  · exact hafter (comment?_eq_spelling h)
  · exact hafter (number?_eq_spelling h)
  · exact hafter (enclosed?_eq_spelling h)
  · obtain ⟨ht, gap, hp, he⟩ := operator?_eq_spelling h
    exact ⟨ht, gap, fun c hc => hblank c (hp.subset hc), hcs.symm.trans he⟩
  · exact hafter (name?_eq_spelling h)

/-! ## 3. Lines

The cutting stops where no token is found, at the end of the line or before.  In the second case the line is
refused, so in the lines that are left nothing follows the last token, not even a blank. -/

/-- The text consists of these tokens, each after a run of blanks, which may be empty. -/
inductive Spaced : List Char → List Term → Prop where
  | nil : Spaced [] []
  | cons {gap rest : List Char} {t : Term} {ts : List Term}
      (hgap : ∀ c ∈ gap, Text.isBlank c = true) (ht : IsToken t) (h : Spaced rest ts) :
      Spaced (gap ++ (spelling t ++ rest)) (t :: ts)

theorem Spaced.isToken {l : List Char} {ts : List Term} (h : Spaced l ts) : ∀ t ∈ ts, IsToken t := by
  induction h with
  | nil => exact List.forall_mem_nil _
  | cons _ ht _ ih => exact List.forall_mem_cons.2 ⟨ht, ih⟩

/-- What is cut from a text consists of the tokens, up to where the cutting stops.  By induction along the
cutting, one token at a time. -/
theorem spaced_scanAll (cs : List Char) :
    ∃ front, Spaced front (scanAll cs).1 ∧ cs = front ++ (scanAll cs).2 := by
  fun_induction scanAll cs with
  | case1 cs h => exact ⟨[], .nil, rfl⟩
  | case2 cs t rest h ts left hrec ih =>
    obtain ⟨ht, gap, hgap, rfl⟩ := scan_eq_spelling h
    obtain ⟨front, hfront, hrest⟩ := ih
    rw [hrec] at hfront hrest
    exact ⟨_, .cons hgap ht hfront, by rw [hrest]; simp⟩

/-- The blanks at the start of a line. -/
def leadingBlanks (l : List Char) : Nat := (l.takeWhile Text.isBlank).length

theorem Spaced.exists_not_blank {l : List Char} {ts : List Term} (h : Spaced l ts) (hne : ts ≠ []) :
    ∃ c ∈ l, Text.isBlank c = false := by
  cases h with
  | nil => exact absurd rfl hne
  | cons hgap ht h =>
    obtain ⟨c, hc, hblank⟩ := ht.exists_not_blank
    exact ⟨c, by simp [hc], hblank⟩

/-- A line without tokens is empty, since blanks stand only before tokens. -/
theorem Spaced.eq_nil_iff {l : List Char} {ts : List Term} (h : Spaced l ts) : ts = [] ↔ l = [] := by
  constructor
  · rintro rfl
    cases h
    rfl
  · rintro rfl
    by_cases hne : ts = []
    · exact hne
    · obtain ⟨c, hc, -⟩ := h.exists_not_blank hne
      cases hc

/-- Where there is a token, the depth of the line is the number of blanks before it.  It would be one less for
a line of blanks only, and a token has a character that is not blank. -/
theorem Spaced.depth_eq {l : List Char} {ts : List Term} (h : Spaced l ts) (hne : ts ≠ []) :
    Text.depth l = leadingBlanks l := by
  obtain ⟨c, hc, hblank⟩ := h.exists_not_blank hne
  refine if_neg fun hlen => ?_
  -- a line that is blanks only would have no such character
  rw [← (List.takeWhile_prefix Text.isBlank).eq_of_length hlen] at hc
  rw [List.all_eq_true.1 List.all_takeWhile c hc] at hblank
  cases hblank

/-- A line that is cut into tokens up to its end consists of these tokens. -/
theorem spaced_of_cuts {l : List Char} {ts : List Term} (h : Cuts l ts []) : Spaced l ts := by
  unfold Cuts at h
  rw [scanAll_nil, List.append_nil] at h
  obtain ⟨front, hspaced, hl⟩ := spaced_scanAll l
  rw [h, List.append_nil] at hl
  rw [h, ← hl] at hspaced
  exact hspaced

/-- Such a line is read as its column and these tokens. -/
theorem line_of_cuts {l : List Char} {ts : List Term} (h : Cuts l ts []) (hne : ts ≠ []) (n : Nat) :
    line n l = .ok (.dent (leadingBlanks l) :: ts) := by
  have hspaced := spaced_of_cuts h
  unfold Cuts at h
  rw [scanAll_nil, List.append_nil] at h
  obtain ⟨t, ts, rfl⟩ := List.exists_cons_of_ne_nil hne
  simp only [line, h, hspaced.depth_eq hne]

/-- Lines that can all be cut are read one after the other. -/
theorem numberedLines_of_cuts {rows : List (List Char × List Term)}
    (h : ∀ x ∈ rows, Cuts x.1 x.2 [] ∧ x.2 ≠ []) (n : Nat) :
    numberedLines n (rows.map (·.1)) = .ok (rows.flatMap fun x => .dent (leadingBlanks x.1) :: x.2) := by
  induction rows generalizing n with
  | nil => rfl
  | cons x rows ih =>
    obtain ⟨⟨hcuts, hne⟩, hrows⟩ := List.forall_mem_cons.1 h
    have hline : x.1 ≠ [] := by
      obtain ⟨c, hc, -⟩ := (spaced_of_cuts hcuts).exists_not_blank hne
      exact List.ne_nil_of_mem hc
    rw [List.map_cons, numberedLines_cons n hline, line_of_cuts hcuts hne, ih hrows]
    rfl

/-- A text is read line by line. -/
theorem tokens_of_cuts {text : String} {rows : List (List Char × List Term)}
    (hlines : Text.lines text.toList = rows.map (·.1)) (h : ∀ x ∈ rows, Cuts x.1 x.2 [] ∧ x.2 ≠ []) :
    tokens text = .ok (rows.flatMap fun x => .dent (leadingBlanks x.1) :: x.2) := by
  rw [tokens, hlines, numberedLines_of_cuts h]

/-- A text of one line. -/
theorem tokens_of_line {l : List Char} {ts : List Term} (hl : Unbroken l) (h : Cuts l ts [])
    (hne : ts ≠ []) : tokens (String.ofList l) = .ok (.dent (leadingBlanks l) :: ts) := by
  obtain ⟨c, hc, -⟩ := (spaced_of_cuts h).exists_not_blank hne
  have hlines : Text.lines (String.ofList l).toList = [(l, ts)].map (·.1) := by
    rw [String.toList_ofList, lines_single hl (List.ne_nil_of_mem hc)]
    rfl
  rw [tokens_of_cuts hlines (List.forall_mem_singleton.2 ⟨h, hne⟩), List.flatMap_singleton]

/-! ## 4. Texts

Breaks are not in the lines, so what a text consists of is said with them in between (`Broken`).  Any of
several characters is a break, and two of them in a row may be one. -/

/-- A break between lines. -/
def IsBreak (b : List Char) : Prop := b = ['\r', '\n'] ∨ ∃ c, Text.isLineBreak c = true ∧ b = [c]

/-- The text consists of these lines, with a break after each.  The break after the last line may be
missing, if the line is not empty. -/
inductive Broken : List Char → List (List Char) → Prop where
  | nil : Broken [] []
  | last {l : List Char} (hne : l ≠ []) (h : Unbroken l) : Broken l [l]
  | cons {l b rest : List Char} {ls : List (List Char)} (h : Unbroken l) (hb : IsBreak b)
      (hrest : Broken rest ls) : Broken (l ++ (b ++ rest)) (l :: ls)

/-- A character that is no break belongs to the first line. -/
theorem Broken.push {c : Char} (hc : Text.isLineBreak c = false) {cs l : List Char}
    {ls : List (List Char)} (h : Broken cs (l :: ls)) : Broken (c :: cs) ((c :: l) :: ls) := by
  cases h with
  | last hne hl => exact .last (List.cons_ne_nil _ _) (List.forall_mem_cons.2 ⟨hc, hl⟩)
  | cons hl hb hrest => exact .cons (List.forall_mem_cons.2 ⟨hc, hl⟩) hb hrest

/-- A text consists of its lines and breaks.  By induction along the splitting: a character is a break, or it
belongs to the line that follows. -/
theorem broken_lines (cs : List Char) : Broken cs (Text.lines cs) := by
  fun_induction Text.lines cs with
  | case1 => exact .nil
  | case2 rest ih => exact .cons (List.forall_mem_nil _) (.inl rfl) ih
  | case3 c rest _ hc ih => exact .cons (List.forall_mem_nil _) (.inr ⟨c, hc, rfl⟩) ih
  | case4 c rest _ hc hlines ih =>
    rw [hlines] at ih
    cases ih
    exact .last (List.cons_ne_nil _ _) (by simpa [Unbroken] using hc)
  | case5 c rest _ hc l ls hlines ih =>
    rw [hlines] at ih
    exact ih.push (Bool.eq_false_iff.2 hc)

/-- A line that is cut into tokens. -/
structure Row where
  line : List Char
  tokens : List Term
  nonempty : tokens ≠ []
  spaced : Spaced line tokens

/-- What a line is cut into: its column and its tokens. -/
def Row.cut (r : Row) : List Term := .dent (leadingBlanks r.line) :: r.tokens

/-- A line that can be read consists of its tokens, and its column is the number of blanks at its start. -/
theorem line_eq_cut {n : Nat} {l : List Char} {ts : List Term} (h : line n l = .ok ts) :
    ∃ r : Row, r.line = l ∧ ts = r.cut := by
  obtain ⟨front, hspaced, hl⟩ := spaced_scanAll l
  unfold line at h
  split at h
  · cases h
  · rename_i us hne hcut
    obtain rfl := Except.ok.inj h
    rw [hcut, List.append_nil] at hl
    rw [hcut, ← hl] at hspaced
    refine ⟨⟨l, us, hne, hspaced⟩, rfl, ?_⟩
    rw [Row.cut, hspaced.depth_eq hne]
  · cases h

/-- The same for lines in a row, of which the empty ones are passed over. -/
theorem numberedLines_eq_cut {n : Nat} {ls : List (List Char)} {ts : List Term}
    (h : numberedLines n ls = .ok ts) :
    ∃ rows : List Row, rows.map Row.line = ls.filter (fun l => !l.isEmpty) ∧ ts = rows.flatMap Row.cut := by
  induction ls generalizing n ts with
  | nil =>
    obtain rfl := Except.ok.inj h
    exact ⟨[], rfl, rfl⟩
  | cons l ls ih =>
    cases l with
    | nil => exact ih (n := n + 1) h
    | cons c l =>
      rw [numberedLines_cons n (List.cons_ne_nil c l)] at h
      obtain ⟨us, hl, h⟩ := ok_of_bind h
      obtain ⟨us', hls, h⟩ := ok_of_bind h
      obtain rfl := Except.ok.inj h
      obtain ⟨r, hr, rfl⟩ := line_eq_cut hl
      obtain ⟨rows, hrows, rfl⟩ := ih hls
      exact ⟨r :: rows, by simp [hr, hrows], by simp⟩

/-- **Nothing is lost.**  A text consists of its lines.  If it can be cut into tokens, each line that is
not empty consists of tokens and the blanks before them, and what the text is cut into is, line by line,
the number of blanks at the start of the line and its tokens. -/
theorem tokens_eq_rows {text : String} {ts : List Term} (h : tokens text = .ok ts) :
    Broken text.toList (Text.lines text.toList) ∧
    ∃ rows : List Row, rows.map Row.line = (Text.lines text.toList).filter (fun l => !l.isEmpty) ∧
      ts = rows.flatMap Row.cut :=
  ⟨broken_lines text.toList, numberedLines_eq_cut h⟩

theorem tokens_eq_rows_sample :
    tokens "f = \"a\"  . g\n\n  p 1.5 # x" = .ok [.dent 0, .word .id "f", .symbol "=",
      .word .str "a", .symbol " . ", .word .id "g", .dent 2, .symbol "p ", .text "1.5",
      .word .comment "# x"] ∧
    Broken "f = \"a\"  . g\n\n  p 1.5 # x".toList (Text.lines "f = \"a\"  . g\n\n  p 1.5 # x".toList) ∧
    ∃ rows : List Row, rows.map Row.line = (Text.lines "f = \"a\"  . g\n\n  p 1.5 # x".toList).filter
        (fun l => !l.isEmpty) ∧
      [.dent 0, .word .id "f", .symbol "=", .word .str "a", .symbol " . ", .word .id "g", .dent 2,
        .symbol "p ", .text "1.5", .word .comment "# x"] = rows.flatMap Row.cut := by
  have h₁ : Cuts "f = \"a\"  . g".toList [.word .id "f", .symbol "=", .word .str "a", .symbol " . ",
      .word .id "g"] [] :=
    .step rfl (.step rfl (.step rfl (.step rfl (.single rfl))))
  have h₂ : Cuts "  p 1.5 # x".toList [.symbol "p ", .text "1.5", .word .comment "# x"] [] :=
    .step rfl (.step rfl (.single rfl))
  have h : tokens "f = \"a\"  . g\n\n  p 1.5 # x" = .ok [.dent 0, .word .id "f", .symbol "=",
      .word .str "a", .symbol " . ", .word .id "g", .dent 2, .symbol "p ", .text "1.5",
      .word .comment "# x"] := by
    have hlines : Text.lines "f = \"a\"  . g\n\n  p 1.5 # x".toList =
        ["f = \"a\"  . g".toList, [], "  p 1.5 # x".toList] := by decide
    rw [tokens, hlines, numberedLines_cons 1 (by decide), line_of_cuts h₁ (by simp), numberedLines,
      numberedLines_cons 3 (by decide), line_of_cuts h₂ (by simp)]
    rfl
  exact ⟨h, tokens_eq_rows h⟩

end Lexer

end Offside
