import Offside.Error
import Offside.Operator.Standard
import Offside.Text.Line
/-!
# Cutting a text into tokens

`tokens` is what the language calls `tokenize`.  Each line that is not empty becomes the column at which it
begins and then its tokens.  At each place blanks are skipped and four things are tried, in this order: a
comment, a constant, an operator, a name.  The first that fits is taken.

* A comment runs to the end of the line, or from `/*` to the next `*/`.
* A constant is a number or a text between two marks; the second mark is the last one on the line.  A
  number with a point is kept as a bare text.
* An operator is the longest sign that fits.  A sign that begins with a blank takes the last one of the
  blanks before it.
* A name is a letter or an underscore, and then letters, digits and underscores.

Every token takes at least one character (`scan_length_lt`), so `scanAll` ends.
-/

namespace Offside.Lexer

/-! ## 1. Comments and constants -/

/-- Splits after the first `*/`. -/
def closeComment? : List Char → Option (List Char × List Char)
  | [] => none
  | '*' :: '/' :: rest => some (['*', '/'], rest)
  | c :: rest => (closeComment? rest).map fun (a, b) => (c :: a, b)

/-- Splits at the last occurrence of a mark. -/
def lastMark? (mark : Char) : List Char → Option (List Char × List Char)
  | [] => none
  | c :: rest =>
    match lastMark? mark rest with
    | some (a, b) => some (c :: a, b)
    | none => if c = mark then some ([], rest) else none

def comment? : List Char → Option (Term × List Char)
  | '#' :: rest => some (.word .comment (String.ofList ('#' :: rest)), [])
  | '/' :: '*' :: rest =>
    (closeComment? rest).map fun (a, b) => (.word .comment (String.ofList ('/' :: '*' :: a)), b)
  | '/' :: '/' :: rest => some (.word .comment (String.ofList ('/' :: '/' :: rest)), [])
  | _ => none

/-- A number: digits, perhaps a point and more digits. -/
def number? (cs : List Char) : Option (Term × List Char) :=
  let whole := cs.takeWhile Text.isDigit
  let rest := cs.dropWhile Text.isDigit
  if whole.isEmpty then none
  else
    match rest with
    | '.' :: rest' =>
      some (.text (String.ofList (whole ++ '.' :: rest'.takeWhile Text.isDigit)),
        rest'.dropWhile Text.isDigit)
    | _ => some (.word .int (String.ofList whole), rest)

/-- The kind of constant that a mark encloses. -/
def marked? : Char → Option Word
  | '"' => some .str
  | '\x60' => some .shellCmd
  | '/' => some .regEx
  | _ => none

/-- A text between two marks. -/
def enclosed? : List Char → Option (Term × List Char)
  | [] => none
  | c :: rest =>
    (marked? c).bind fun w => (lastMark? c rest).map fun (a, b) => (.word w (String.ofList a), b)

/-! ## 2. Operators and names -/

/-- What is left after a sign, which is given by its characters.  `gap` are the blanks before. -/
def afterSign? (gap body : List Char) : List Char → Option (List Char)
  | [] => none
  | c :: sign =>
    if Text.isBlank c then
      if gap.getLast? = some c && sign.isPrefixOf body then some (body.drop sign.length) else none
    else if (c :: sign).isPrefixOf body then some (body.drop (sign.length + 1)) else none

/-- The first of the signs that fits. -/
def operator? (signs : List String) (gap body : List Char) : Option (Term × List Char) :=
  signs.findSome? fun s => (afterSign? gap body s.toList).map fun rest => (.symbol s, rest)

def startsName (c : Char) : Bool := c.isAlpha || c = '_'

def inName (c : Char) : Bool := c.isAlphanum || c = '_'

def name? : List Char → Option (Term × List Char)
  | [] => none
  | c :: rest =>
    if startsName c then
      some (.word .id (String.ofList (c :: rest.takeWhile inName)), rest.dropWhile inName)
    else none

/-! ## 3. Tokens -/

/-- The next token, and what is left after it. -/
def scan (cs : List Char) : Option (Term × List Char) :=
  let gap := cs.takeWhile Text.isBlank
  let body := cs.dropWhile Text.isBlank
  comment? body <|> number? body <|> enclosed? body <|>
    operator? OperatorTable.signs gap body <|> name? body

theorem closeComment?_length {cs a b : List Char} (h : closeComment? cs = some (a, b)) :
    b.length < cs.length := by
  fun_induction closeComment? cs generalizing a b with
  | case1 => cases h
  | case2 rest =>
    simp only [Option.some.injEq, Prod.mk.injEq] at h
    rw [← h.2, List.length_cons, List.length_cons]; omega
  | case3 c rest _ ih =>
    obtain ⟨⟨a', b'⟩, h', e⟩ := Option.map_eq_some_iff.1 h
    simp only [Prod.mk.injEq] at e
    obtain ⟨-, rfl⟩ := e
    exact Nat.lt_succ_of_lt (ih h')

theorem lastMark?_length {mark : Char} {cs a b : List Char} (h : lastMark? mark cs = some (a, b)) :
    b.length < cs.length := by
  fun_induction lastMark? mark cs generalizing a b with
  | case1 => cases h
  | case2 c rest a' b' h' ih =>
    simp only [Option.some.injEq, Prod.mk.injEq] at h
    obtain ⟨-, rfl⟩ := h
    exact Nat.lt_succ_of_lt (ih h')
  | case3 rest h' ih =>
    simp only [Option.some.injEq, Prod.mk.injEq] at h
    simp [← h.2]
  | case4 => cases h

theorem comment?_length {cs r : List Char} {t : Term} (h : comment? cs = some (t, r)) :
    r.length < cs.length := by
  unfold comment? at h
  split at h
  · simp only [Option.some.injEq, Prod.mk.injEq] at h; simp [← h.2]
  · obtain ⟨⟨a, b⟩, h', e⟩ := Option.map_eq_some_iff.1 h
    simp only [Prod.mk.injEq] at e
    obtain ⟨-, rfl⟩ := e
    have := closeComment?_length h'
    simp only [List.length_cons]; omega
  · simp only [Option.some.injEq, Prod.mk.injEq] at h; simp [← h.2]
  · cases h

theorem length_dropWhile_le {p : Char → Bool} (cs : List Char) :
    (cs.dropWhile p).length ≤ cs.length := (List.dropWhile_sublist p).length_le

theorem number?_length {cs r : List Char} {t : Term} (h : number? cs = some (t, r)) :
    r.length < cs.length := by
  have hlen : (cs.takeWhile Text.isDigit).length + (cs.dropWhile Text.isDigit).length
      = cs.length := by
    rw [← List.length_append, List.takeWhile_append_dropWhile]
  simp only [number?] at h
  split at h
  · cases h
  · rename_i hw
    have hpos : 0 < (cs.takeWhile Text.isDigit).length := by
      rw [List.length_pos_iff]; simpa using hw
    split at h
    · rename_i rest' hr
      simp only [Option.some.injEq, Prod.mk.injEq] at h
      rw [← h.2]
      have := length_dropWhile_le (p := Text.isDigit) rest'
      rw [hr, List.length_cons] at hlen
      omega
    · simp only [Option.some.injEq, Prod.mk.injEq] at h
      rw [← h.2]; omega

theorem enclosed?_length {cs r : List Char} {t : Term} (h : enclosed? cs = some (t, r)) :
    r.length < cs.length := by
  cases cs with
  | nil => cases h
  | cons c rest =>
    simp only [enclosed?] at h
    obtain ⟨w, -, h⟩ := Option.bind_eq_some_iff.1 h
    obtain ⟨⟨a, b⟩, h', e⟩ := Option.map_eq_some_iff.1 h
    simp only [Prod.mk.injEq] at e
    obtain ⟨-, rfl⟩ := e
    exact Nat.lt_succ_of_lt (lastMark?_length h')

theorem afterSign?_length {gap body sign r : List Char} (h : afterSign? gap body sign = some r) :
    r.length < gap.length + body.length := by
  cases sign with
  | nil => cases h
  | cons c sign =>
    simp only [afterSign?] at h
    split at h
    · split at h
      · rename_i hg
        simp only [Bool.and_eq_true, decide_eq_true_eq] at hg
        have hpos : 0 < gap.length := by
          cases gap with
          | nil => simp at hg
          | cons _ _ => simp
        simp only [Option.some.injEq] at h
        rw [← h, List.length_drop]; omega
      · cases h
    · split at h
      · rename_i hp
        have hle := (List.isPrefixOf_iff_prefix.1 hp).length_le
        simp only [List.length_cons] at hle
        simp only [Option.some.injEq] at h
        rw [← h, List.length_drop]; omega
      · cases h

theorem operator?_length {signs : List String} {gap body r : List Char} {t : Term}
    (h : operator? signs gap body = some (t, r)) : r.length < gap.length + body.length := by
  obtain ⟨s, -, h⟩ := List.exists_of_findSome?_eq_some h
  obtain ⟨rest, h', e⟩ := Option.map_eq_some_iff.1 h
  simp only [Prod.mk.injEq] at e
  obtain ⟨-, rfl⟩ := e
  exact afterSign?_length h'

theorem name?_length {cs r : List Char} {t : Term} (h : name? cs = some (t, r)) :
    r.length < cs.length := by
  cases cs with
  | nil => cases h
  | cons c rest =>
    simp only [name?] at h
    split at h
    · simp only [Option.some.injEq, Prod.mk.injEq] at h
      rw [← h.2, List.length_cons]
      exact Nat.lt_succ_of_le (length_dropWhile_le rest)
    · cases h

/-- A token takes at least one character. -/
theorem scan_length_lt {cs r : List Char} {t : Term} (h : scan cs = some (t, r)) :
    r.length < cs.length := by
  have hlen : (cs.takeWhile Text.isBlank).length + (cs.dropWhile Text.isBlank).length
      = cs.length := by
    rw [← List.length_append, List.takeWhile_append_dropWhile]
  simp only [scan, Option.orElse_eq_orElse, Option.orElse_eq_or, Option.or_eq_some_iff] at h
  rcases h with h | ⟨-, h | ⟨-, h | ⟨-, h | ⟨-, h⟩⟩⟩⟩
  · have := comment?_length h; omega
  · have := number?_length h; omega
  · have := enclosed?_length h; omega
  · have := operator?_length h; omega
  · have := name?_length h; omega

/-- The tokens of a line, and what is left where none fits any more. -/
def scanAll (cs : List Char) : List Term × List Char :=
  match _h : scan cs with
  | none => ([], cs)
  | some (t, rest) =>
    let (ts, left) := scanAll rest
    (t :: ts, left)
termination_by cs.length
decreasing_by exact scan_length_lt _h

/-- The tokens of one line, which is not empty, with its column in front. -/
def line (number : Nat) (cs : List Char) : Except Error (List Term) :=
  match scanAll cs with
  | ([], _) => .error (.noToken (String.ofList cs))
  | (ts, []) => .ok (.dent (Text.depth cs) :: ts)
  | (_, left) => .error (.badLine number (String.ofList cs) (cs.length - left.length))

/-- The tokens of the lines of a text, the first of which has this number. -/
def numberedLines : Nat → List (List Char) → Except Error (List Term)
  | _, [] => .ok []
  | n, [] :: ls => numberedLines (n + 1) ls
  | n, l :: ls => do
    let ts ← line n l
    return ts ++ (← numberedLines (n + 1) ls)

/-- The tokens of a text. -/
def tokens (text : String) : Except Error (List Term) :=
  numberedLines 1 (Text.lines text.toList)

end Offside.Lexer
