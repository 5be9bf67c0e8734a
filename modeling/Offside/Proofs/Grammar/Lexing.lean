import Offside.Grammar.Lexicon
import Offside.Proofs.Grammar.Lexemes
import Offside.Proofs.Grammar.Progress
/-!
# The tokens of a line, by grammar and by lexer

The tokens of the language are given twice: as a grammar of regular expressions, and by a lexer that cuts a line
with functions of its own.  On a line the two agree (`read_line`), and that the tokens of a line have an end is
said of both (`program_ends`).

The expressions of the grammar are written down as texts, and read when the grammar is made.  What they are read
as is stated in section 1.  Section 2 has the kinds of tokens one by one: the first lexeme of a kind that fits
cuts off what the function of the lexer does.  The order matters in two places.  A number with a point comes
before one without, since the second fits wherever the first does; and `/` begins comments and texts, of which
the comments come first.  Section 3 puts the kinds together, for one token and for the whole line.

A text with a line feed is no line.  There a comment would end before the line feed, and the lexer, which never
meets one, goes to the end of the text.
-/

namespace Offside

open Regex

namespace Lexicon

open Grammar

/-! ## 1. The lexemes of the language

The grammar as a list of lexemes, with the trees that its expressions are read as.  Reading the texts is a
computation, and it is done once (`standard_eq`); that each lexeme takes some text is read off the trees. -/

/-- The lexeme of an expression, with the text of its last group. -/
def lexeme (source : String) (e : Regex) (groups : Nat) (m : TokenMaker) : RegexLexeme :=
  ⟨false, source, ⟨e.afterBlanks, groups, []⟩, m, true⟩

def comments : List RegexLexeme :=
  [ lexeme "\\#.*" (row (fixed ['#'] ++ [run true .inLine])) 1 (.word .comment),
    lexeme "/\\*.*?\\*/" (row (fixed ['/', '*'] ++ run false .inLine :: fixed ['*', '/'])) 1 (.word .comment),
    lexeme "//.*" (row (fixed ['/', '/'] ++ [run true .inLine])) 1 (.word .comment) ]

def numbers : List RegexLexeme :=
  [ lexeme "\\d+\\.\\d*" (row (rounds 1 none true (one .digit) :: (fixed ['.'] ++ [run true .digit]))) 1 .text,
    lexeme "\\d+" (row [rounds 1 none true (one .digit)]) 1 (.word .int) ]

def texts : List RegexLexeme :=
  [ lexeme "\"(.*)\"" (enclosed '"') 2 (.word .str),
    lexeme "`(.*)`" (enclosed '\x60') 2 (.word .shellCmd),
    lexeme "/(.*)/" (enclosed '/') 2 (.word .regEx) ]

/-- The first character of a name. -/
def nameStart : CharTest := ⟨false, [.range 'A' 'Z', .range 'a' 'z', .range '_' '_'], false⟩

/-- A character of a name. -/
def namePart : CharTest := ⟨false, [.range 'a' 'z', .range 'A' 'Z', .range '0' '9', .range '_' '_'], false⟩

def name : RegexLexeme := lexeme "[A-Za-z_][a-zA-Z0-9_]*" (row [one nameStart, run true namePart]) 1 (.word .id)

def signs : List RegexLexeme := OperatorTable.signs.map .sign

/-- A line. -/
def program : Grammar RegexLexeme := .rule 5

/-- What a line consists of, in the order in which it is tried. -/
def parts : List (Grammar RegexLexeme) := [.rule 1, .rule 0, .rule 4, .lexeme name]

/-- The grammar of the language with a name. -/
def find? (name : String) : Option (Grammar RegexLexeme) := standard.tokens.lookup name

/-- The names of the parts of a line. -/
def partNames : List String := ["COMMENT", "CONST", "OPERATOR", "ID"]

/-- What the texts of the grammar are read as.  This is computed, once and for all; everything after it is
about the trees and not about the texts. -/
theorem standard_eq :
    find? "PROGRAM" = some program ∧ partNames.mapM find? = some parts ∧
      standard.book.find? 5 = some ⟨.someOf, parts⟩ ∧
      standard.book.find? 1 = some ⟨.choice, comments.map .lexeme⟩ ∧
      standard.book.find? 0 = some ⟨.choice, (numbers ++ texts).map .lexeme⟩ ∧
      standard.book.find? 4 = some ⟨.choice, signs.map .lexeme⟩ := by
  decide +kernel

theorem takesText_of_mem :
    (∀ l ∈ comments, l.takesText = true) ∧ (∀ l ∈ numbers ++ texts, l.takesText = true) ∧
      (∀ l ∈ signs, l.takesText = true) ∧ name.takesText = true := by
  decide +kernel

theorem takes_choice {n : Nat} {ls : List RegexLexeme}
    (hrule : standard.book.find? n = some ⟨.choice, ls.map .lexeme⟩)
    (hls : ∀ l ∈ ls, l.takesText = true) : takes standard.book 2 (.rule n) = true := by
  rw [takes, hrule]
  simpa [takes] using hls

theorem takes_parts : ∀ g ∈ parts, takes standard.book 2 g = true := by
  obtain ⟨-, -, -, hcomment, hconst, hoperator⟩ := standard_eq
  obtain ⟨hcomments, hconsts, hsigns, hname⟩ := takesText_of_mem
  simp only [parts, List.forall_mem_cons]
  exact ⟨takes_choice hcomment hcomments, takes_choice hconst hconsts, takes_choice hoperator hsigns, hname,
    List.forall_mem_nil _⟩

/-! ## 2. The lexemes cut as the lexer does

For each kind of token, the first lexeme that fits cuts off what the lexer does.  The lexemes of a kind begin
with different characters, or the order between them is the one in which the lexer tries them. -/

theorem holds_digit_of_isBlank {c : Char} (hc : Text.isBlank c = true) : CharTest.digit.holds c = false := by
  rw [CharTest.holds_digit, ← Bool.not_eq_true]
  intro hd
  rw [Lexer.isBlank_of_isDigit hd] at hc
  cases hc

/-- The point ends the digits before it. -/
theorem holds_point_of_digit {c : Char} (hc : CharTest.digit.holds c = true) :
    (CharTest.just '.').holds c = false := by
  rw [CharTest.holds_just]
  refine beq_false_of_ne ?_
  rintro rfl
  cases hc

theorem takes_point :
    Takes 1 (row (rounds 1 none true (one .digit) :: (fixed ['.'] ++ [run true .digit])))
      (.rounds .digit (.fixed ['.'] (.run .digit))) := by
  have hwants : ∀ k, WantsWhole .digit fun s' => (row (fixed ['.'] ++ [run true .digit])).search s' k :=
    fun k => wantsWhole_of_refuses fun _ _ _ hs hc =>
      (begins_fixed '.' [] [run true .digit]).search_eq_none hs (holds_point_of_digit hc) k
  exact takes_of_splitsAs (.rounds .digit (.fixed ['.'] (.run .digit)) fun k _ => hwants k)
    (begins_rounds .digit _) fun _ => holds_digit_of_isBlank

theorem takes_whole : Takes 1 (row [rounds 1 none true (one .digit)]) (.rounds .digit .nothing) :=
  takes_of_splitsAs (.rounds .digit .nil fun _ hk => wantsWhole_of_isSome hk) (begins_rounds .digit [])
    fun _ => holds_digit_of_isBlank

theorem holds_upper (c : Char) : (SetItem.range 'A' 'Z').holds c = c.isUpper :=
  (Bool.decide_and _ _).symm

theorem holds_lower (c : Char) : (SetItem.range 'a' 'z').holds c = c.isLower := rfl

theorem holds_nameStart (c : Char) : nameStart.holds c = Lexer.startsName c := by
  have halpha : c.isAlpha = (c.isUpper || c.isLower) := rfl
  simp [nameStart, CharTest.holds, CharTest.holds_range_self, holds_upper, holds_lower, Lexer.startsName,
    halpha, Bool.or_assoc, Bool.beq_eq_decide_eq, eq_comm]

theorem holds_namePart (c : Char) : namePart.holds c = Lexer.inName c := by
  have hdigit : (SetItem.range '0' '9').holds c = c.isDigit := rfl
  have halpha : c.isAlphanum = ((c.isUpper || c.isLower) || c.isDigit) := rfl
  simp [namePart, CharTest.holds, CharTest.holds_range_self, holds_upper, holds_lower, hdigit, Lexer.inName,
    halpha, Bool.or_assoc, Bool.or_left_comm, Bool.beq_eq_decide_eq, eq_comm]

theorem holds_nameStart_of_isBlank {c : Char} (hc : Text.isBlank c = true) : nameStart.holds c = false := by
  rw [holds_nameStart, ← Bool.not_eq_true]
  intro hname
  rw [Lexer.isBlank_of_inName (Lexer.inName_of_startsName hname)] at hc
  cases hc

theorem findSome?_cons_eq_or {α β : Type} (f : α → Option β) (a : α) (l : List α) :
    (a :: l).findSome? f = (f a).or (l.findSome? f) := by
  rw [List.findSome?_cons]
  cases f a <;> rfl

section

variable {cs : List Char} (hcs : '\n' ∉ cs)

include hcs

/-- Up to its end a line has no line feed. -/
theorem run_inLine : Splitter.run .inLine cs = some (cs, []) := by
  have hall : ∀ c ∈ cs, CharTest.inLine.holds c = true :=
    fun c hc => CharTest.holds_inLine fun h => hcs (h ▸ hc)
  have htake := Lexer.takeWhile_append_ends hall (Lexer.ends_nil _)
  have hdrop := Lexer.dropWhile_append_ends hall (Lexer.ends_nil _)
  rw [List.append_nil] at htake hdrop
  rw [Splitter.run, htake, hdrop]

theorem cut?_lexeme {source : String} {e : Regex} {groups : Nat} {f : Splitter} (hf : Takes groups e f)
    (m : TokenMaker) (make : String → Term) (hmake : ∀ a, m.make (some a) = .ok (make a)) :
    (lexeme source e groups m).cut? cs =
      (f (cs.dropWhile Text.isBlank)).map fun x => (make (String.ofList x.1), x.2) :=
  RegexLexeme.cut?_of_takes (l := lexeme source e groups m) make rfl hf hmake hcs

theorem cut?_word {source : String} {e : Regex} {groups : Nat} {f : Splitter} (hf : Takes groups e f) (w : Word) :
    (lexeme source e groups (.word w)).cut? cs =
      (f (cs.dropWhile Text.isBlank)).map fun x => (.word w (String.ofList x.1), x.2) :=
  cut?_lexeme hcs hf (.word w) (.word w) fun _ => rfl

/-- The three kinds of comments, tried in order.  At most one of them fits, as they begin differently. -/
theorem findSome?_comments :
    comments.findSome? (·.cut? cs) = Lexer.comment? (cs.dropWhile Text.isBlank) := by
  have hbody : '\n' ∉ cs.dropWhile Text.isBlank := fun h => hcs ((List.dropWhile_suffix _).subset h)
  have hhash := takes_fixed (c := '#') rfl [] (.run .inLine)
  have hclosed := takes_fixed (c := '/') rfl ['*'] .close
  have hslash := takes_fixed (c := '/') rfl ['/'] (.run .inLine)
  simp only [comments, findSome?_cons_eq_or, List.findSome?_nil, Option.or_none, cut?_word hcs hhash .comment,
    cut?_word hcs hclosed .comment, cut?_word hcs hslash .comment]
  generalize cs.dropWhile Text.isBlank = body at hbody
  cases body with
  | nil => rfl
  | cons c body =>
    have hrest := List.not_mem_of_not_mem_cons hbody
    by_cases hc : c = '#'
    · subst hc
      simp [Splitter.fixed, run_inLine hrest, Lexer.comment?]
    by_cases hc' : c = '/'
    · subst hc'
      cases body with
      | nil => rfl
      | cons d body =>
        have hrest' := List.not_mem_of_not_mem_cons hrest
        by_cases hd : d = '*'
        · subst hd
          simp [Splitter.fixed, Lexer.comment?, Function.comp_def]
        by_cases hd' : d = '/'
        · subst hd'
          simp [Splitter.fixed, run_inLine hrest', Lexer.comment?]
        · simp [Splitter.fixed, Lexer.comment?, Ne.symm hd, Ne.symm hd', hd, hd']
    · rw [Lexer.comment?_eq_none hc hc']
      simp [Splitter.fixed, Ne.symm hc, Ne.symm hc']

/-- A number with a point is tried before one without.  Both take all digits; the lexer does so once and looks
for a point afterwards. -/
theorem findSome?_numbers :
    numbers.findSome? (·.cut? cs) = Lexer.number? (cs.dropWhile Text.isBlank) := by
  have hdigit : CharTest.digit.holds = Text.isDigit := funext CharTest.holds_digit
  simp only [numbers, findSome?_cons_eq_or, List.findSome?_nil, Option.or_none,
    cut?_lexeme hcs takes_point .text .text fun _ => rfl, cut?_word hcs takes_whole .int]
  generalize cs.dropWhile Text.isBlank = body
  rw [Splitter.rounds, Splitter.rounds, Lexer.number?, hdigit]
  by_cases hempty : (body.takeWhile Text.isDigit).isEmpty = true
  · simp only [if_pos hempty, Option.map_none, Option.or_none]
  · simp only [if_neg hempty]
    cases body.dropWhile Text.isDigit with
    | nil => simp [Splitter.fixed, Splitter.nothing]
    | cons c rest =>
      by_cases hc : c = '.'
      · subst hc
        simp [Splitter.fixed, Splitter.run, hdigit]
      · simp [Splitter.fixed, Splitter.nothing, hc, Ne.symm hc]

/-- The three kinds of enclosed texts, which differ in their marks. -/
theorem findSome?_texts :
    texts.findSome? (·.cut? cs) = Lexer.enclosed? (cs.dropWhile Text.isBlank) := by
  have hquote : Takes 2 (enclosed '"') (.between '"') := takes_enclosed rfl
  have htick : Takes 2 (enclosed '\x60') (.between '\x60') := takes_enclosed rfl
  have hslash : Takes 2 (enclosed '/') (.between '/') := takes_enclosed rfl
  simp only [texts, findSome?_cons_eq_or, List.findSome?_nil, Option.or_none, cut?_word hcs hquote .str,
    cut?_word hcs htick .shellCmd, cut?_word hcs hslash .regEx]
  generalize cs.dropWhile Text.isBlank = body
  cases body with
  | nil => rfl
  | cons c body =>
    by_cases hc : c = '"' ∨ c = '\x60' ∨ c = '/'
    · rcases hc with rfl | rfl | rfl <;> simp [Splitter.between, Lexer.enclosed?, Lexer.marked?]
    · simp only [not_or] at hc
      obtain ⟨hquote, htick, hslash⟩ := hc
      simp [Splitter.between, Lexer.enclosed?, Lexer.marked?, Ne.symm hquote, Ne.symm htick, Ne.symm hslash]

/-- The signs are tried in the same order by both, the longer before the shorter. -/
theorem findSome?_signs :
    signs.findSome? (·.cut? cs) =
      Lexer.operator? OperatorTable.signs (cs.takeWhile Text.isBlank) (cs.dropWhile Text.isBlank) := by
  have hsigns : ∀ s ∈ OperatorTable.signs, (s.toList.take 2).any (!Text.isBlank ·) = true := by decide
  rw [signs]
  generalize OperatorTable.signs = signs at hsigns
  induction signs with
  | nil => rfl
  | cons s signs ih =>
    obtain ⟨hs, hsigns⟩ := List.forall_mem_cons.1 hsigns
    rw [List.map_cons, findSome?_cons_eq_or, RegexLexeme.cut?_sign hs hcs, ih hsigns, Lexer.operator?,
      Lexer.operator?, findSome?_cons_eq_or]

/-- Names: the classes of characters of the expression are those of the lexer. -/
theorem cut?_name : name.cut? cs = Lexer.name? (cs.dropWhile Text.isBlank) := by
  have hstart : nameStart.holds = Lexer.startsName := funext holds_nameStart
  have hpart : namePart.holds = Lexer.inName := funext holds_namePart
  have hname : Takes 1 _ _ := takes_of_splitsAs (.one nameStart (.run namePart)) (begins_one _ _)
    fun _ => holds_nameStart_of_isBlank
  rw [name, cut?_word hcs hname .id]
  generalize cs.dropWhile Text.isBlank = body
  cases body with
  | nil => rfl
  | cons c body =>
    rw [Splitter.one, Splitter.run, hstart, hpart, Lexer.name?]
    split <;> rfl

end

end Lexicon

/-! ## 3. Readings of a line

A grammar *reads as* a function on texts if, wherever it is read, it gives the token that the function cuts
off and the place behind it (`ReadsAs`).  Lexemes do so by definition of `cut?`, and choices by trying one
function after the other.  With the kinds of section 2 the four parts of a line read as the four functions of
the lexer, and a round of the repetition is one token. -/

namespace Grammar

/-- How a reading at `p` ends, if `x` is the token that is cut off there and what is left of the text. -/
def placed (text : List Char) (p : Int) : (x : Option (Term × List Char)) → Reading
  | none => .error (.noMatch p)
  | some (t, rest) => .ok (t, text.length - rest.length)

/-- Wherever it is read in the text, the grammar gives the token that `f` cuts off. -/
def ReadsAs {L : Type} (text : List Char) (sub : Reader L) (g : Grammar L)
    (f : List Char → Option (Term × List Char)) : Prop :=
  ∀ p : Nat, p ≤ text.length → sub g p = placed text p (f (text.drop p))

variable {b : RuleBook RegexLexeme} {text : List Char}

/-- A choice between grammars that each read as a function is the first function that gives something. -/
theorem readFirst_of_readsAs {L : Type} {sub : Reader L}
    {gs : List (Grammar L × (List Char → Option (Term × List Char)))}
    (hgs : ∀ x ∈ gs, ReadsAs text sub x.1 x.2) {p : Nat} (hp : p ≤ text.length) :
    readFirst sub p (gs.map (·.1)) = placed text p (gs.findSome? fun x => x.2 (text.drop p)) := by
  induction gs with
  | nil => rfl
  | cons x gs ih =>
    obtain ⟨hx, hgs⟩ := List.forall_mem_cons.1 hgs
    rw [List.map_cons, readFirst, hx p hp, Lexicon.findSome?_cons_eq_or]
    cases hcut : x.2 (text.drop p) with
    | none => exact ih hgs
    | some r => rfl

/-- A lexeme of the grammar reads what its expression cuts off.  The place after it is found from the length
of the match. -/
theorem readsAs_lexeme {l : RegexLexeme} (h : l.takesText = true) (depth : Nat) :
    ReadsAs text (readTo b text (depth + 1)) (.lexeme l) l.cut? := by
  intro p hp
  have hsuffix : suffixFrom text p = text.drop p := by
    rw [suffixFrom, if_neg (Int.not_lt.2 (Int.natCast_nonneg p)), Int.toNat_natCast]
  show readLexeme l.lexeme text p = _
  rw [readLexeme, hsuffix, RegexLexeme.cut?]
  cases hf : l.lexeme.matcher (text.drop p) with
  | none => rfl
  | some f =>
    obtain ⟨v, hv⟩ := RegexLexeme.exists_token h f
    have hlength := l.bounded _ f hf
    rw [List.length_drop] at hlength
    have hplace : (p : Int) + f.length = text.length - ((text.drop p).drop f.length).length := by
      rw [List.length_drop, List.length_drop]
      omega
    simp only [Option.bind_some, hv, hplace]
    rfl

/-- A choice of lexemes reads what the first that fits cuts off. -/
theorem readsAs_choice {n : Nat} {ls : List RegexLexeme} (hrule : b.find? n = some ⟨.choice, ls.map .lexeme⟩)
    (hls : ∀ l ∈ ls, l.takesText = true) (depth : Nat) :
    ReadsAs text (readTo b text (depth + 2)) (.rule n) fun cs => ls.findSome? (·.cut? cs) := by
  intro p hp
  have hgs : ∀ x ∈ ls.map fun l => (Grammar.lexeme l, l.cut?), ReadsAs text (readTo b text (depth + 1)) x.1 x.2 :=
    List.forall_mem_map.2 fun l hl => readsAs_lexeme (hls l hl) depth
  have hfirst := readFirst_of_readsAs hgs hp
  rw [List.map_map, List.findSome?_map] at hfirst
  rw [readTo, hrule]
  exact hfirst

end Grammar

namespace Lexicon

open Grammar

section

variable {text : List Char} (htext : '\n' ∉ text)

include htext

/-- **In a line the first part that fits is the next token.** -/
theorem readFirst_parts {depth p : Nat} (hp : p ≤ text.length) :
    readFirst (readTo standard.book text (depth + 2)) p parts = placed text p (Lexer.scan (text.drop p)) := by
  obtain ⟨-, -, -, hcomment, hconst, hoperator⟩ := standard_eq
  obtain ⟨hcomments, hconsts, hsigns, hname⟩ := takesText_of_mem
  have hgs : ∀ x ∈ [(Grammar.rule 1, fun cs => comments.findSome? (·.cut? cs)),
      (.rule 0, fun cs => (numbers ++ texts).findSome? (·.cut? cs)),
      (.rule 4, fun cs => signs.findSome? (·.cut? cs)), (.lexeme name, name.cut?)],
      ReadsAs text (readTo standard.book text (depth + 2)) x.1 x.2 := by
    simp only [List.forall_mem_cons]
    exact ⟨readsAs_choice hcomment hcomments depth, readsAs_choice hconst hconsts depth,
      readsAs_choice hoperator hsigns depth, readsAs_lexeme hname (depth + 1),
      List.forall_mem_nil _⟩
  have hdrop : '\n' ∉ text.drop p := fun h => htext (List.mem_of_mem_drop h)
  have hfirst := readFirst_of_readsAs hgs hp
  simp only [findSome?_cons_eq_or, List.findSome?_nil, Option.or_none, List.findSome?_append,
    findSome?_comments hdrop, findSome?_numbers hdrop, findSome?_texts hdrop, findSome?_signs hdrop, cut?_name hdrop] at hfirst
  refine hfirst.trans (congrArg _ ?_)
  simp only [Lexer.scan, Option.orElse_eq_orElse, Option.orElse_eq_or, Option.or_assoc]

/-- **In a line the parts are read as the lexer cuts them.**  The induction is on the bound on the rounds.  A
round takes the token that `Lexer.scan` cuts off (`readFirst_parts`) and goes on behind it; where there is
none, both stop, at the same place. -/
theorem readSome_parts {depth most p : Nat} (hp : p ≤ text.length) (hmost : text.length - p < most)
    (done : List Term) :
    readSome (readTo standard.book text (depth + 2)) parts most done p =
      outcome (done ++ (Lexer.scanAll (text.drop p)).1)
        (text.length - (Lexer.scanAll (text.drop p)).2.length : Int) := by
  generalize hcs : text.drop p = cs
  fun_induction Lexer.scanAll cs generalizing p most done with
  | case1 cs hscan =>
    obtain ⟨most, rfl⟩ : ∃ m, most = m + 1 := ⟨most - 1, by omega⟩
    have hplace : (text.length : Int) - cs.length = p := by
      rw [← hcs, List.length_drop]
      omega
    rw [readSome, readFirst_parts htext hp, hcs, hscan, hplace, List.append_nil]
    rfl
  | case2 cs t rest hscan ts left hrec ih =>
    obtain ⟨most, rfl⟩ : ∃ m, most = m + 1 := ⟨most - 1, by omega⟩
    have hlt := Lexer.scan_length_lt hscan
    obtain ⟨-, gap, -, hrest⟩ := Lexer.scan_eq_spelling hscan
    have hlength : cs.length = text.length - p := by rw [← hcs, List.length_drop]
    have hcut : rest <:+ cs := ⟨gap ++ Lexer.spelling t, by rw [List.append_assoc, ← hrest]⟩
    have hsuffix : rest <:+ text := hcut.trans (hcs ▸ List.drop_suffix p text)
    have hle := hsuffix.length_le
    have hdrop : text.drop (text.length - rest.length) = rest := (List.suffix_iff_eq_drop.1 hsuffix).symm
    have hnext : (text.length : Int) - rest.length = (text.length - rest.length : Nat) := by omega
    have hne : ((text.length - rest.length : Nat) : Int) ≠ p := by omega
    rw [readSome, readFirst_parts htext hp, hcs, hscan, placed, hnext]
    simp only [if_neg hne]
    rw [ih (by omega) (by omega) (done ++ [t]) hdrop, hrec]
    simp

end

/-- **The grammar of a line reads what the lexer cuts**: the same tokens, up to the same place. -/
theorem read_line {line : String} (hline : '\n' ∉ line.toList) :
    read standard.book program line 0 =
      outcome (Lexer.scanAll line.toList).1 (line.toList.length - (Lexer.scanAll line.toList).2.length : Int) := by
  obtain ⟨k, hk⟩ : ∃ k, depthLimit = k + 3 := ⟨997, rfl⟩
  have hread : read standard.book program line 0 = readSome (readTo standard.book line.toList (k + 2)) parts
      (line.toList.length + (0 : Int).natAbs + 1) [] (0 : Nat) := by
    rw [Grammar.read, hk, program, readTo, standard_eq.2.2.1]
    rfl
  rw [hread, readSome_parts hline (Nat.zero_le _) (by omega), List.nil_append, List.drop_zero]

/-- The other way round: what the grammar reads is what the line is cut into. -/
theorem scanAll_eq {text : String} {ts : List Term} {q : Int} (htext : '\n' ∉ text.toList)
    (h : read standard.book program text 0 = outcome ts q) :
    Lexer.scanAll text.toList = (ts, text.toList.drop q.toNat) := by
  obtain ⟨rfl, rfl⟩ := outcome_inj.1 (h.symm.trans (read_line htext))
  obtain ⟨front, -, hfront⟩ := Lexer.spaced_scanAll text.toList
  have hsuffix : (Lexer.scanAll text.toList).2 <:+ text.toList := ⟨front, hfront.symm⟩
  have hplace : (text.toList.length - (Lexer.scanAll text.toList).2.length : Int).toNat =
      text.toList.length - (Lexer.scanAll text.toList).2.length := by omega
  rw [hplace, ← List.suffix_iff_eq_drop.1 hsuffix]

/-- **The tokens of a line end.**  A line is read as comments, constants, operators and names.  Each of these
takes at least one character wherever it fits, and no more than there are.  So there is an end to the rounds in
which the first of them that fits is taken: after at most as many tokens as the text has characters, at a
position in the text or at its end where none of them fits.  What is read is that, if there is a token.  The
lexer cuts a line into the same tokens and leaves the same rest. -/
theorem program_ends (text : String) :
    find? "PROGRAM" = some program ∧ partNames.mapM find? = some parts ∧
      (∀ g ∈ parts, ∀ (p : Nat) (v : Term) (q : Int), read standard.book g text p = .ok (v, q) →
        p < q ∧ q ≤ text.length) ∧
      ∃ ts q, Rounds (fun g p => read standard.book g text p) parts 0 ts q ∧
        read standard.book program text 0 = outcome ts q ∧ ts.length ≤ q ∧ q ≤ text.length ∧
        (∀ g ∈ parts, read standard.book g text q = .error (.noMatch q)) ∧
        ('\n' ∉ text.toList → Lexer.scanAll text.toList = (ts, text.toList.drop q.toNat)) := by
  have hdepth : 2 < depthLimit := by decide
  have hgs : ∀ g ∈ parts, Advances text.toList.length (readTo standard.book text.toList depthLimit) g :=
    fun g hg => advances_of_takes (takes_parts g hg) _ (Nat.le_of_lt hdepth)
  rw [String.length_toList] at hgs
  obtain ⟨hprogram, hparts, hrule, -⟩ := standard_eq
  refine ⟨hprogram, hparts, fun g hg p v q hok => ?_, ?_⟩
  · exact Picks.lt (List.forall_mem_singleton.2 (hgs g hg)) (Int.natCast_nonneg p) (.here hok)
  · obtain ⟨ts, q, hrounds, hread⟩ := read_someOf hrule takes_parts hdepth text
    have hlength := hrounds.length_le hgs (Int.le_refl 0)
    exact ⟨ts, q, hrounds, hread, by omega, by omega, hrounds.misses, fun htext => scanAll_eq htext hread⟩

/-- The sign in the middle takes the blank before it too, and the blanks at the end are not taken. -/
theorem program_ends_sum :
    ∃ g ∈ parts, ∃ v ts, read standard.book g "x + 10  " (1 : Nat) = .ok (v, 3) ∧ ((1 : Nat) : Int) < 3 ∧
      read standard.book program "x + 10  " 0 = .ok (.seq ts, 6) ∧ ts.length ≤ 6 ∧
      read standard.book g "x + 10  " 6 = .error (.noMatch 6) ∧
      '\n' ∉ "x + 10  ".toList ∧ Lexer.scanAll "x + 10  ".toList = (ts, "  ".toList) := by
  obtain ⟨-, -, hadvance, ts, q, -, hread, hlength, -, hmiss, hscan⟩ := program_ends "x + 10  "
  obtain ⟨hsign, hline⟩ : (parts.any fun g =>
        (read standard.book g "x + 10  " (1 : Nat)).toOption.map (·.2) = some 3) = true ∧
      (read standard.book program "x + 10  " 0).toOption.map (·.2) = some 6 := by decide +kernel
  obtain ⟨g, hg, hvalue⟩ := List.any_eq_true.1 hsign
  obtain ⟨v, hv⟩ := exists_eq_ok (of_decide_eq_true hvalue)
  obtain ⟨w, hw⟩ := exists_eq_ok hline
  obtain ⟨rfl, rfl⟩ := eq_seq_of_outcome (hread.symm.trans hw)
  exact ⟨g, hg, v, ts, hv, (hadvance g hg 1 v 3 hv).1, hw, Int.ofNat_le.1 hlength, hmiss g hg, by decide,
    hscan (by decide)⟩

end Lexicon

end Offside
