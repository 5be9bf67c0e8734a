import Offside.Proofs.Token.Lossless
/-!
# Printed tokens are found again

Numbers, signs and names are printed on one line, by their spellings, with a single space between any
two.  Cutting that line gives back the tokens (`tokens_printed`).

A space ends everything that could go on: the digits of a number, the letters of a name, a sign that
begins a longer one.  So the only thing to look at is one token and a space, or the end, after it
(`scan_plain`).  Two signs have spaces of their own.  The one for printing is found with the space that it
ends with, and then the one between the tokens is left.  The one for composition begins with a space, and
takes that from the spaces before it.
-/

namespace Offside

/-- The signs that are looked for are those of the table. -/
theorem OperatorTable.mem_signs_iff (s : String) :
    s ∈ signs ↔ (standard.find? s).isSome = true := by
  constructor
  · revert s
    decide
  · intro h
    have hkeys : ∀ e ∈ standard.entries, ∃ s ∈ signs, e.1 = some s := by decide
    obtain ⟨o, ho⟩ := Option.isSome_iff_exists.1 h
    obtain ⟨before, after, hsplit, -⟩ := List.lookup_eq_some_iff.1 ho
    obtain ⟨s', hs', he⟩ := hkeys (some s, o) (by rw [hsplit]; simp)
    obtain rfl := Option.some.inj he
    exact hs'

namespace Lexer

/-! ## 1. What is printed

Numbers, signs and names, each with its spelling, and lines that are made of them.  A name that begins with a
sign is left out, since it would be cut into the sign and a rest. -/

/-- A token that is printed as it is: digits of any script, a sign of the table, or a name that does not
begin with a sign. -/
inductive Plain where
  | number (ds : List Char) (nonempty : ds ≠ []) (digits : ∀ c ∈ ds, Text.isDigit c = true)
  | sign (s : String) (declared : (OperatorTable.standard.find? s).isSome = true)
  | name (x : Name)

namespace Plain

def term : Plain → Term
  | number ds _ _ => .word .int (String.ofList ds)
  | sign s _ => .symbol s
  | name x => x.token

def chars (t : Plain) : List Char := spelling t.term

theorem isToken (t : Plain) : IsToken t.term := by
  cases t with
  | number ds hne hds => exact .int hne hds
  | sign s hs => exact .sign ((OperatorTable.mem_signs_iff s).2 hs)
  | name x => exact .name x.startsName_first x.inName_more

theorem chars_ne_nil (t : Plain) : t.chars ≠ [] := by
  obtain ⟨c, hc, -⟩ := t.isToken.exists_not_blank
  exact List.ne_nil_of_mem hc

/-- No token of this kind has a line break in it. -/
theorem unbroken_chars (t : Plain) : Unbroken t.chars := by
  cases t with
  | number ds hne hds =>
    intro c hc
    simp only [chars, term, Term.word, spelling, String.toList_ofList] at hc
    exact isLineBreak_eq_false (isBlank_of_isDigit (hds c hc))
  | sign s hs => exact signs_unbroken s ((OperatorTable.mem_signs_iff s).2 hs)
  | name x =>
    intro c hc
    simp only [chars, term, Name.token, Name.text, Term.word, spelling, String.toList_ofList] at hc
    exact isLineBreak_eq_false (isBlank_of_inName (x.inName_chars c hc))

end Plain

/-- The tokens on one line, with single spaces between them. -/
def printed (ts : List Plain) : List Char := [' '].intercalate (ts.map Plain.chars)

theorem printed_single (t : Plain) : printed [t] = t.chars := by
  simp [printed]

theorem printed_cons (t u : Plain) (ts : List Plain) :
    printed (t :: u :: ts) = t.chars ++ ' ' :: printed (u :: ts) := by
  simp [printed]

theorem printed_ne_nil (t : Plain) (ts : List Plain) : printed (t :: ts) ≠ [] := by
  cases ts with
  | nil => rw [printed_single]; exact t.chars_ne_nil
  | cons u ts => simp [printed_cons]

theorem unbroken_printed (t : Plain) (ts : List Plain) : Unbroken (printed (t :: ts)) := by
  induction ts generalizing t with
  | nil => rw [printed_single]; exact t.unbroken_chars
  | cons u ts ih =>
    rw [printed_cons]
    exact List.forall_mem_append.2 ⟨t.unbroken_chars, List.forall_mem_cons.2 ⟨rfl, ih u⟩⟩

/-! ## 2. One token

All that matters about what follows a token is its first character, and this is a space if anything follows.
The two signs with spaces of their own are looked at separately. -/

/-- Nothing follows, or a space. -/
def Parted (rest : List Char) : Prop := Ends (fun c => c != ' ') rest

theorem Parted.ends {rest : List Char} (h : Parted rest) {p : Char → Bool} (hp : p ' ' = false) :
    Ends p rest := by
  refine h.mono fun c hc => ?_
  obtain rfl : c = ' ' := by simpa using hc
  exact hp

/-- The sign for composition takes the last one of the spaces before it. -/
theorem scan_compose (k : Nat) (rest : List Char) :
    scan (spaces k ++ (" . ".toList ++ rest)) = some (.symbol " . ", rest) := by
  have htext : spaces k ++ (" . ".toList ++ rest) = spaces (k + 1) ++ ('.' :: ' ' :: rest) := by
    simp [spaces, List.replicate_succ']
  have hlast : (spaces (k + 1)).getLast? = some ' ' := by
    simp [spaces, List.replicate_succ']
  have hfits : afterSign? (spaces (k + 1)) ('.' :: ' ' :: rest) " . ".toList = some rest := by
    show (if (decide ((spaces (k + 1)).getLast? = some ' ') && true) = true then some rest else none) = _
    rw [hlast]
    rfl
  have hop : operator? OperatorTable.signs (spaces (k + 1)) ('.' :: ' ' :: rest) =
      some (.symbol " . ", rest) := by
    refine List.findSome?_eq_some_iff.2 ⟨["assert", "return", "match", "else"], " . ", _, rfl, ?_, ?_⟩
    · rw [hfits]
      rfl
    · simp only [List.mem_cons, List.not_mem_nil, or_false]
      rintro s (rfl | rfl | rfl | rfl) <;> rfl
  rw [htext, scan_spaces (k + 1) (ends_cons rfl _), hop, comment?_eq_none (by decide) (by decide),
    number?_eq_none rfl, enclosed?_eq_none rfl]
  rfl

/-- **A printed token is found, whatever the spaces before it, if a space or nothing follows.** -/
theorem scan_plain (t : Plain) (k : Nat) {rest : List Char} (h : Parted rest) :
    scan (spaces k ++ (t.chars ++ rest)) = some (t.term, rest) := by
  cases t with
  | number ds hne hds =>
    have hchars : (Plain.number ds hne hds).chars = ds := String.toList_ofList
    rw [hchars]
    exact scan_digits k hne hds (h.ends rfl)
  | sign s hs =>
    by_cases hdot : s = " . "
    · subst hdot
      exact scan_compose k rest
    · exact scan_sign k ((OperatorTable.mem_signs_iff s).2 hs) hdot fun _ => h.ends rfl
  | name x =>
    have hchars : (Plain.name x).chars = x.chars := String.toList_ofList
    rw [hchars]
    exact scan_name k x (h.ends rfl)

/-! ## 3. A line of tokens

By induction on the tokens: the first one is found, and what is left is a space and the rest of the line. -/

/-- A printed line is cut into its tokens. -/
theorem cuts_printed (t : Plain) (ts : List Plain) (k : Nat) :
    Cuts (spaces k ++ printed (t :: ts)) ((t :: ts).map Plain.term) [] := by
  induction ts generalizing t k with
  | nil =>
    have hscan := scan_plain t k (ends_nil _)
    rw [List.append_nil] at hscan
    rw [printed_single]
    exact .single hscan
  | cons u ts ih =>
    rw [printed_cons]
    -- the space between the tokens is one before the next token
    exact .step (scan_plain t k (ends_cons rfl _)) (ih u 1)

/-- **Printing and cutting is the identity.**  A line on which tokens are printed with single spaces between
them is cut into these tokens, after the number of blanks at its start. -/
theorem tokens_printed (t : Plain) (ts : List Plain) :
    tokens (String.ofList (printed (t :: ts))) =
      .ok (.dent (leadingBlanks (printed (t :: ts))) :: (t :: ts).map Plain.term) := by
  have hcuts : Cuts (printed (t :: ts)) ((t :: ts).map Plain.term) [] := cuts_printed t ts 0
  have hne := printed_ne_nil t ts
  rw [tokens, String.toList_ofList, lines_single (unbroken_printed t ts) hne, numberedLines_cons 1 hne,
    line_of_cuts hcuts (by simp)]
  simp only [numberedLines, Except.bind, List.append_nil]

end Lexer

end Offside
