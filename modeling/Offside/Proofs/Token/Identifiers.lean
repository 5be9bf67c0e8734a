import Offside.Proofs.Token.Lossless
/-!
# Which identifiers are one token

Signs are tried before names, and nothing is asked of what follows a sign.  So a line that consists of an
identifier is a name if and only if none of the signs that are written like names begins it
(`tokens_identifier`): `fifty` is a name, but `iffy` is the sign `if` and the name `fy`, and no identifier
that begins with an underscore is a name.  A sign in front is cut off, and the rest is cut as if it stood
alone.

Cutting never fails on letters, digits and underscores (`exists_cuts_of_inName`).  A digit begins a number
and everything else a sign or a name, so there is always a token, and what is left after it consists of such
characters again.
-/

namespace Offside

namespace Lexer

/-! ## 1. Identifiers

What a reader of the language would take for a name.  Six of the signs are written like that, and these are
all that can get in the way. -/

/-- Letters, digits and underscores, with no digit in front. -/
structure Identifier where
  first : Char
  more : List Char
  startsName_first : startsName first = true
  inName_more : ∀ c ∈ more, inName c = true

namespace Identifier

def chars (x : Identifier) : List Char := x.first :: x.more

def text (x : Identifier) : String := String.ofList x.chars

theorem inName_chars (x : Identifier) : ∀ c ∈ x.chars, inName c = true :=
  List.forall_mem_cons.2 ⟨inName_of_startsName x.startsName_first, x.inName_more⟩

end Identifier

/-- The signs that are written like names. -/
def wordSigns : List String := OperatorTable.signs.filter fun s => s.toList.all inName

example : wordSigns = ["assert", "return", "match", "else", "if", "_"] := by decide

/-- No other sign begins an identifier. -/
theorem mem_wordSigns {s : String} (hs : s ∈ OperatorTable.signs) {cs : List Char}
    (hcs : ∀ c ∈ cs, inName c = true) (h : s.toList <+: cs) : s ∈ wordSigns :=
  List.mem_filter.2 ⟨hs, List.all_eq_true.2 fun c hc => hcs c (h.subset hc)⟩

/-- These signs are found whatever comes before and after them. -/
theorem wordSigns_found : ∀ s ∈ wordSigns, s ≠ " . " ∧ extensible s = false := by
  decide

/-! ## 2. Letters, digits and underscores

An identifier from which a sign was cut off need not be an identifier any more, as it may begin with a digit.
So the rest is looked at as a text of letters, digits and underscores, and such texts can always be cut. -/

theorem unbroken_of_inName {cs : List Char} (h : ∀ c ∈ cs, inName c = true) : Unbroken cs :=
  fun c hc => isLineBreak_eq_false (isBlank_of_inName (h c hc))

theorem leadingBlanks_of_inName {cs : List Char} (h : ∀ c ∈ cs, inName c = true) :
    leadingBlanks cs = 0 := by
  cases cs with
  | nil => rfl
  | cons c cs =>
    rw [leadingBlanks, List.takeWhile_cons_of_neg]
    · rfl
    · rw [isBlank_of_inName (h c List.mem_cons_self)]
      exact Bool.false_ne_true

/-- What is in names and begins none is a digit. -/
theorem isDigit_of_inName {c : Char} (h : inName c = true) (hstart : startsName c = false) :
    Text.isDigit c = true := by
  simp only [inName, startsName, Char.isAlphanum, Bool.or_eq_true, Bool.or_eq_false_iff] at h hstart
  have hdigit : c.isDigit = true := by
    rcases h with (h | h) | h
    · rw [hstart.1] at h
      cases h
    · exact h
    · rw [hstart.2] at h
      cases h
  simp only [Char.isDigit, Bool.and_eq_true, decide_eq_true_eq] at hdigit
  have h₁ : 48 ≤ c.toNat := UInt32.le_iff_toNat_le.1 hdigit.1
  have h₂ : c.toNat ≤ 57 := UInt32.le_iff_toNat_le.1 hdigit.2
  simp only [Text.isDigit, Text.digitValue?, if_pos (by omega : c.toNat < 0x80)]
  rw [if_pos (by simp only [Bool.and_eq_true, decide_eq_true_eq]; omega)]
  rfl

/-- A digit always begins a number. -/
theorem number?_ne_none {c : Char} (h : Text.isDigit c = true) (cs : List Char) :
    number? (c :: cs) ≠ none := by
  have hwhole : ((c :: cs).takeWhile Text.isDigit).isEmpty = false := by
    rw [List.takeWhile_cons_of_pos h]
    rfl
  simp only [number?, hwhole]
  split
  · rename_i hfalse
    cases hfalse
  · split
    · exact Option.some_ne_none _
    · exact Option.some_ne_none _

/-- There is always a token: a number if a digit comes first, and a sign or a name if not. -/
theorem exists_scan_of_inName {c : Char} (h : inName c = true) (cs : List Char) :
    ∃ t rest, scan (c :: cs) = some (t, rest) := by
  have hbody : Ends Text.isBlank (c :: cs) := ends_cons (isBlank_of_inName h) _
  cases hscan : scan (c :: cs) with
  | some p => exact ⟨p.1, p.2, rfl⟩
  | none =>
    have hall := (scan_spaces 0 hbody).symm.trans hscan
    simp only [Option.orElse_eq_orElse, Option.orElse_eq_or, Option.or_eq_none_iff] at hall
    obtain ⟨-, hnumber, -, -, hname⟩ := hall
    have hstart : startsName c = false := by
      simpa [name?] using hname
    exact absurd hnumber (number?_ne_none (isDigit_of_inName h hstart) cs)

/-- Such a text is cut into tokens up to its end. -/
theorem exists_cuts_of_inName (cs : List Char) (h : ∀ c ∈ cs, inName c = true) :
    ∃ ts, Cuts cs ts [] := by
  fun_induction scanAll cs with
  | case1 cs hscan =>
    cases cs with
    | nil => exact ⟨[], .refl []⟩
    | cons c cs =>
      obtain ⟨t, rest, hsome⟩ := exists_scan_of_inName (h c List.mem_cons_self) cs
      cases hscan.symm.trans hsome
  | case2 cs t rest hscan ts left hrec ih =>
    obtain ⟨-, gap, -, hspell⟩ := scan_eq_spelling hscan
    obtain ⟨us, hus⟩ := ih fun c hc => h c (by simp [hspell, hc])
    exact ⟨t :: us, .step hscan hus⟩

theorem tokens_of_inName {cs : List Char} {ts : List Term} (h : ∀ c ∈ cs, inName c = true)
    (hcuts : Cuts cs ts []) (hne : ts ≠ []) : tokens (String.ofList cs) = .ok (.dent 0 :: ts) := by
  rw [tokens_of_line (unbroken_of_inName h) hcuts hne, leadingBlanks_of_inName h]
  rfl

/-! ## 3. A line that consists of an identifier

The lexer tries comments, constants and signs before names.  An identifier begins with a letter or an
underscore, so it is no comment and no constant; what is left is the question whether a sign fits at its
start, and only signs that are written like names can. -/

/-- A sign in front is cut off, and the rest is cut as if it stood alone. -/
theorem exists_tokens_of_sign (x : Identifier) {s : String} (hs : s ∈ wordSigns) {rest : List Char}
    (h : x.chars = s.toList ++ rest) :
    ∃ ts, Cuts rest ts [] ∧ tokens x.text = .ok (.dent 0 :: .symbol s :: ts) := by
  have hx := x.inName_chars
  obtain ⟨hdot, hext⟩ := wordSigns_found s hs
  have hscan : scan x.chars = some (.symbol s, rest) := by
    rw [h]
    exact scan_sign 0 (List.mem_filter.1 hs).1 hdot fun he => absurd (hext.symm.trans he) (by decide)
  obtain ⟨ts, hts⟩ := exists_cuts_of_inName rest fun c hc => hx c (by simp [h, hc])
  exact ⟨ts, hts, tokens_of_inName hx (.step hscan hts) (List.cons_ne_nil _ _)⟩

/-- If no sign of letters begins it, an identifier is one token. -/
theorem tokens_of_unsigned (x : Identifier) (h : ∀ s ∈ wordSigns, ¬ s.toList <+: x.chars) :
    tokens x.text = .ok [.dent 0, .word .id x.text] := by
  have hx := x.inName_chars
  have hsign : ∀ s ∈ OperatorTable.signs, ¬ s.toList <+: x.first :: (x.more ++ []) := by
    intro s hs hp
    rw [List.append_nil] at hp
    exact h s (mem_wordSigns hs hx hp) hp
  have hscan := scan_unsigned 0 x.startsName_first x.inName_more (ends_nil _) hsign
  rw [List.append_nil] at hscan
  exact tokens_of_inName hx (.single hscan) (List.cons_ne_nil _ _)

/-- **Which identifiers are one token.**  A line that consists of an identifier is cut into one token, the
name, if and only if no sign that is written like a name begins it.  If there is such a sign, it is the first
token, and the others are those of the rest, of which there are none only if the identifier is the sign
itself. -/
theorem tokens_identifier (x : Identifier) :
    (tokens x.text = .ok [.dent 0, .word .id x.text] ↔ ∀ s ∈ wordSigns, ¬ s.toList <+: x.chars) ∧
    ∀ s ∈ wordSigns, ∀ rest, x.chars = s.toList ++ rest →
      ∃ ts, (ts = [] ↔ rest = []) ∧ Cuts rest ts [] ∧
        tokens x.text = .ok (.dent 0 :: .symbol s :: ts) := by
  refine ⟨⟨?_, tokens_of_unsigned x⟩, fun s hs rest h => ?_⟩
  · rintro htokens s hs ⟨rest, hrest⟩
    obtain ⟨ts, -, hsplit⟩ := exists_tokens_of_sign x hs hrest.symm
    rw [htokens] at hsplit
    cases hsplit
  · obtain ⟨ts, hts, htokens⟩ := exists_tokens_of_sign x hs h
    exact ⟨ts, (spaced_of_cuts hts).eq_nil_iff, hts, htokens⟩

/-- Two signs in a row, and a third one inside of what is left. -/
theorem tokens_identifier_signs :
    "if" ∈ wordSigns ∧ ∃ ts, (ts = [] ↔ "else_x".toList = []) ∧ Cuts "else_x".toList ts [] ∧
      tokens "ifelse_x" = .ok (.dent 0 :: .symbol "if" :: ts) := by
  have hmore : ∀ c ∈ "felse_x".toList, inName c = true := List.all_eq_true.1 (by decide)
  exact ⟨by decide, (tokens_identifier ⟨'i', "felse_x".toList, rfl, hmore⟩).2 "if" (by decide) _ rfl⟩

/-- Two identifiers that are no signs and no names. -/
theorem tokens_split_identifiers :
    "iffy" ∉ wordSigns ∧ tokens "iffy" = .ok [.dent 0, .symbol "if", .word .id "fy"] ∧
    "_x" ∉ wordSigns ∧ tokens "_x" = .ok [.dent 0, .symbol "_", .word .id "x"] := by
  have hif : Cuts "iffy".toList [.symbol "if", .word .id "fy"] [] := .step rfl (.single rfl)
  have hjoker : Cuts "_x".toList [.symbol "_", .word .id "x"] [] := .step rfl (.single rfl)
  exact ⟨by decide, tokens_of_inName (List.all_eq_true.1 (by decide)) hif (by simp),
    by decide, tokens_of_inName (List.all_eq_true.1 (by decide)) hjoker (by simp)⟩

end Lexer

end Offside
