import Offside.Token.Lexer
/-!
# Spelled tokens are found again

A token has a spelling: the digits of a number, the characters of a name, the sign of an operator.  Where
the spelling of a token stands after blanks, and what follows does not make it longer, the token is what
the text is cut at (`scan_numeral`, `scan_name`, `scan_sign`).

What can make a token longer depends on the token.  A number goes on with digits and with a point, a name
with letters, digits and underscores, and a sign with what makes it a longer sign: nothing that begins with
a space does, and most signs cannot be made longer at all.

`Cuts` puts such steps together: the text `cs` begins with the tokens `ts`, and `rest` is left.  `Spells`
says it for all that may follow at once, so that spellings can be put next to each other
(`Spells.append`), and `Read` says it for whole lines, up to the text of a program (`tokens_joinLines`).
-/

namespace Offside

namespace Lexer

/-! ## 1. Runs of characters

A run is taken as far as characters of a class go.  That a token ends where its spelling does is a matter of
the one character after it, and `Ends` says what this may not be. -/

/-- The text does not go on with a character of this class. -/
def Ends (p : Char → Bool) (rest : List Char) : Prop := ∀ c, rest.head? = some c → p c = false

theorem ends_nil (p : Char → Bool) : Ends p [] := fun _ h => by cases h

theorem ends_cons {p : Char → Bool} {c : Char} (h : p c = false) (cs : List Char) :
    Ends p (c :: cs) := fun d hd => by cases hd; exact h

theorem Ends.mono {p q : Char → Bool} {rest : List Char} (h : Ends q rest)
    (hpq : ∀ c, q c = false → p c = false) : Ends p rest := fun c hc => hpq c (h c hc)

theorem Ends.append {p : Char → Bool} {a : List Char} (h : Ends p a) (hne : a ≠ []) (b : List Char) :
    Ends p (a ++ b) := by
  obtain ⟨c, cs, rfl⟩ := List.exists_cons_of_ne_nil hne
  exact ends_cons (h c rfl) _

theorem takeWhile_append_ends {p : Char → Bool} {a rest : List Char} (ha : ∀ c ∈ a, p c = true)
    (hr : Ends p rest) : (a ++ rest).takeWhile p = a := by
  have hrest : rest.takeWhile p = [] := by
    cases rest with
    | nil => rfl
    | cons c cs => simp [hr c rfl]
  rw [List.takeWhile_append_of_pos ha, hrest, List.append_nil]

theorem dropWhile_append_ends {p : Char → Bool} {a rest : List Char} (ha : ∀ c ∈ a, p c = true)
    (hr : Ends p rest) : (a ++ rest).dropWhile p = rest := by
  have hrest : rest.dropWhile p = rest := by
    cases rest with
    | nil => rfl
    | cons c cs => simp [hr c rfl]
  rw [List.dropWhile_append_of_pos ha, hrest]

/-- So many spaces. -/
def spaces (k : Nat) : List Char := List.replicate k ' '

theorem isBlank_spaces {k : Nat} : ∀ c ∈ spaces k, Text.isBlank c = true := by
  intro c hc
  rw [List.eq_of_mem_replicate hc]
  rfl

/-- After spaces the kinds of tokens are tried in order, and the first one that is found is taken. -/
theorem scan_spaces (k : Nat) {body : List Char} (hb : Ends Text.isBlank body) :
    scan (spaces k ++ body) = (comment? body <|> number? body <|> enclosed? body <|>
      operator? OperatorTable.signs (spaces k) body <|> name? body) := by
  simp only [scan, takeWhile_append_ends isBlank_spaces hb, dropWhile_append_ends isBlank_spaces hb]

theorem comment?_eq_none {c : Char} (h : c ≠ '#') (h' : c ≠ '/') (cs : List Char) :
    comment? (c :: cs) = none := by
  unfold comment?
  split <;> simp_all

theorem number?_eq_none {c : Char} (h : Text.isDigit c = false) (cs : List Char) :
    number? (c :: cs) = none := by
  simp [number?, h]

theorem enclosed?_eq_none {c : Char} (h : marked? c = none) (cs : List Char) :
    enclosed? (c :: cs) = none := by
  simp [enclosed?, h]

/-! ## 2. Numbers

The digits of all scripts count.  Numbers are tried after comments and before everything else, so it has to be
known of a digit that it is not blank and begins no comment. -/

/-- A digit is less than ten after the zero of its script. -/
theorem exists_zero_of_isDigit {c : Char} (h : Text.isDigit c = true) :
    ∃ z ∈ Text.zeros, z ≤ c.toNat ∧ c.toNat < z + 10 := by
  unfold Text.isDigit Text.digitValue? at h
  split at h
  · split at h
    · rename_i hc
      simp only [Bool.and_eq_true, decide_eq_true_eq] at hc
      exact ⟨0x30, by decide, hc.1, by omega⟩
    · cases h
  · rw [Option.isSome_map] at h
    obtain ⟨z, hz⟩ := Option.isSome_iff_exists.1 h
    have hc := List.find?_some hz
    simp only [Bool.and_eq_true, decide_eq_true_eq] at hc
    exact ⟨z, List.mem_of_find?_eq_some hz, hc⟩

theorem zeros_apart : ∀ z ∈ Text.zeros, 0x30 ≤ z ∧
    ∀ r ∈ Text.blanks.ranges, z + 10 ≤ r.1 ∨ r.2 < z := by
  decide

/-- No digit of any script is blank. -/
theorem isBlank_of_isDigit {c : Char} (h : Text.isDigit c = true) : Text.isBlank c = false := by
  obtain ⟨z, hz, hle, hlt⟩ := exists_zero_of_isDigit h
  rw [← Bool.not_eq_true, Text.isBlank, Text.CharClass.holds_iff]
  rintro ⟨r, hr, hr₁, hr₂⟩
  rcases (zeros_apart z hz).2 r hr with hz | hz
  · omega
  · omega

/-- A digit begins no comment. -/
theorem ne_of_isDigit {c : Char} (h : Text.isDigit c = true) : c ≠ '#' ∧ c ≠ '/' := by
  obtain ⟨z, hz, hle, -⟩ := exists_zero_of_isDigit h
  have hz := (zeros_apart z hz).1
  constructor
  · rintro rfl
    exact absurd (Nat.le_trans hz hle) (by decide)
  · rintro rfl
    exact absurd (Nat.le_trans hz hle) (by decide)

/-- The characters that make a number longer. -/
def inNumber (c : Char) : Bool := Text.isDigit c || c = '.'

/-- Digits, of any scripts, are a number. -/
theorem scan_digits (k : Nat) {ds rest : List Char} (hne : ds ≠ [])
    (hds : ∀ c ∈ ds, Text.isDigit c = true) (h : Ends inNumber rest) :
    scan (spaces k ++ (ds ++ rest)) = some (.word .int (String.ofList ds), rest) := by
  have hdigit : Ends Text.isDigit rest := fun c hc => (Bool.or_eq_false_iff.1 (h c hc)).1
  have hpoint : ∀ cs, rest ≠ '.' :: cs := by
    intro cs hrest
    have := h '.' (by rw [hrest]; rfl)
    simp [inNumber] at this
  have hnum : number? (ds ++ rest) = some (.word .int (String.ofList ds), rest) := by
    have hempty : ds.isEmpty = false := by simpa using hne
    simp only [number?, takeWhile_append_ends hds hdigit, dropWhile_append_ends hds hdigit, hempty,
      Bool.false_eq_true, if_false]
  obtain ⟨d, cs, rfl⟩ := List.exists_cons_of_ne_nil hne
  have hd : Text.isDigit d = true := hds d List.mem_cons_self
  have hbody : Ends Text.isBlank (d :: cs ++ rest) := ends_cons (isBlank_of_isDigit hd) _
  rw [scan_spaces k hbody, hnum, List.cons_append,
    comment?_eq_none (ne_of_isDigit hd).1 (ne_of_isDigit hd).2]
  rfl

/-- A number as it is written: one digit or more. -/
structure Numeral where
  digits : List (Fin 10)
  nonempty : digits ≠ []

/-- The character for a digit. -/
def digitChar (d : Fin 10) : Char := Char.ofNat (0x30 + d.val)

theorem isDigit_digitChar (d : Fin 10) : Text.isDigit (digitChar d) = true := by
  revert d; decide

theorem isBlank_digitChar (d : Fin 10) : Text.isBlank (digitChar d) = false :=
  isBlank_of_isDigit (isDigit_digitChar d)

namespace Numeral

def chars (n : Numeral) : List Char := n.digits.map digitChar

def token (n : Numeral) : Term := .word .int (String.ofList n.chars)

theorem chars_ne_nil (n : Numeral) : n.chars ≠ [] := by
  simpa [chars] using n.nonempty

theorem isDigit_chars (n : Numeral) : ∀ c ∈ n.chars, Text.isDigit c = true := by
  intro c hc
  obtain ⟨d, -, rfl⟩ := List.mem_map.1 hc
  exact isDigit_digitChar d

/-- A number begins with a digit. -/
theorem chars_eq_cons (n : Numeral) : ∃ d cs, n.chars = digitChar d :: cs := by
  obtain ⟨ds, hne⟩ := n
  cases ds with
  | nil => exact absurd rfl hne
  | cons d ds => exact ⟨d, ds.map digitChar, rfl⟩

end Numeral

theorem scan_numeral (k : Nat) (n : Numeral) {rest : List Char} (h : Ends inNumber rest) :
    scan (spaces k ++ (n.chars ++ rest)) = some (n.token, rest) :=
  scan_digits k n.chars_ne_nil n.isDigit_chars h

/-! ## 3. Names

Names are tried last, after all signs.  A sign that begins like a name goes on like one, so if it fits at the
start of a name and of what follows, it fits in the name itself (`Name.not_sign_isPrefix`), which a `Name`
rules out.  The one exception ends with a space; for its sake a `Name` is not the letter `p`. -/

/-- A name as it is written.  It does not begin with a sign, and is not the letter that is the sign for
printing when a space follows. -/
structure Name where
  first : Char
  more : List Char
  startsName_first : startsName first = true
  inName_more : ∀ c ∈ more, inName c = true
  noSign : ∀ s ∈ OperatorTable.signs, ¬ s.toList <+: first :: more
  ne_print : first :: more ≠ ['p']

namespace Name

def chars (x : Name) : List Char := x.first :: x.more

def text (x : Name) : String := String.ofList x.chars

def token (x : Name) : Term := .word .id x.text

end Name

theorem toNat_of_startsName {c : Char} (h : startsName c = true) : 65 ≤ c.toNat ∧ c.toNat ≤ 122 := by
  rcases Bool.or_eq_true_iff.1 h with h | h
  · rcases Bool.or_eq_true_iff.1 h with h | h
    · obtain ⟨h₁, h₂⟩ := of_decide_eq_true h
      exact ⟨UInt32.le_iff_toNat_le.1 h₁, Nat.le_trans (UInt32.le_iff_toNat_le.1 h₂) (by decide)⟩
    · obtain ⟨h₁, h₂⟩ := Bool.and_eq_true_iff.1 h
      exact ⟨Nat.le_trans (by decide) (UInt32.le_iff_toNat_le.1 (of_decide_eq_true h₁)),
        UInt32.le_iff_toNat_le.1 (of_decide_eq_true h₂)⟩
  · obtain rfl := of_decide_eq_true h
    decide

theorem isBlank_eq_false {c : Char} (h : 33 ≤ c.toNat) (h' : c.toNat ≤ 126) : Text.isBlank c = false := by
  simp only [Text.isBlank, Text.CharClass.holds, Text.blanks, List.any_eq_false, List.mem_cons,
    List.not_mem_nil, or_false, Bool.and_eq_true, decide_eq_true_eq]
  rintro r (rfl | rfl | rfl | rfl | rfl | rfl | rfl | rfl | rfl | rfl) <;> simp <;> omega

theorem isDigit_eq_false {c : Char} (h : 58 ≤ c.toNat) (h' : c.toNat ≤ 126) : Text.isDigit c = false := by
  simp only [Text.isDigit, Text.digitValue?, if_pos (by omega : c.toNat < 0x80)]
  rw [if_neg]
  · rfl
  · simp only [Bool.and_eq_true, decide_eq_true_eq]; omega

theorem inName_of_startsName {c : Char} (h : startsName c = true) : inName c = true := by
  simp only [startsName, inName, Char.isAlphanum, Bool.or_eq_true] at h ⊢
  rcases h with h | h
  · exact .inl (.inl h)
  · exact .inr h

theorem isBlank_of_inName {c : Char} (h : inName c = true) : Text.isBlank c = false := by
  simp only [inName, Char.isAlphanum, Bool.or_eq_true] at h
  rcases h with (h | h) | h
  · obtain ⟨h₁, h₂⟩ := toNat_of_startsName (c := c) (by simp [startsName, h])
    exact isBlank_eq_false (by omega) (by omega)
  · simp only [Char.isDigit, Bool.and_eq_true, decide_eq_true_eq] at h
    have h₁ : 48 ≤ c.toNat := UInt32.le_iff_toNat_le.1 h.1
    have h₂ : c.toNat ≤ 57 := UInt32.le_iff_toNat_le.1 h.2
    exact isBlank_eq_false (by omega) (by omega)
  · obtain rfl := of_decide_eq_true h
    rfl

theorem Name.inName_chars (x : Name) : ∀ c ∈ x.chars, inName c = true :=
  List.forall_mem_cons.2 ⟨inName_of_startsName x.startsName_first, x.inName_more⟩

theorem marked?_of_startsName {c : Char} (h : startsName c = true) : marked? c = none := by
  unfold marked?
  split
  · exact absurd h (by decide)
  · exact absurd h (by decide)
  · exact absurd h (by decide)
  · rfl

/-- A sign that begins like a name goes on like one, unless it is the sign for printing. -/
theorem signs_like_names : ∀ s ∈ OperatorTable.signs, s.toList.head?.any startsName = true →
    s.toList.tail.all inName = true ∨ s = "p " := by
  decide

/-- Only one sign begins with a blank. -/
theorem signs_after_blank : ∀ s ∈ OperatorTable.signs, s.toList.head?.any Text.isBlank = true →
    s = " . " := by
  decide

/-- A sign fits only where the text begins with it, if it does not begin with a point. -/
theorem afterSign?_eq_none {gap body : List Char} {s : String} (hs : s ∈ OperatorTable.signs)
    (hpoint : body.head? ≠ some '.') (h : ¬ s.toList <+: body) :
    afterSign? gap body s.toList = none := by
  cases hcs : s.toList with
  | nil => rfl
  | cons c cs =>
    by_cases hc : Text.isBlank c = true
    · obtain rfl := signs_after_blank s hs (by rw [hcs]; exact hc)
      have hcs' : cs = ['.', ' '] := (List.cons.inj hcs).2.symm
      have hp : cs.isPrefixOf body = false := by
        rw [hcs']
        cases body with
        | nil => rfl
        | cons d body =>
          have hd : '.' ≠ d := fun he => hpoint (by rw [he]; rfl)
          simp [List.isPrefixOf, hd]
      simp only [afterSign?, hc, if_true, hp, Bool.and_false, Bool.false_eq_true, if_false]
    · have hp : (c :: cs).isPrefixOf body = false := by
        rw [hcs] at h
        simpa [← Bool.not_eq_true, List.isPrefixOf_iff_prefix] using h
      simp only [afterSign?, if_neg hc, hp, Bool.false_eq_true, if_false]

/-- No sign fits where a name stands.  It would have to end inside of the name, since it goes on with
characters of names and the name ends where these do. -/
theorem Name.not_sign_isPrefix (x : Name) {rest : List Char} (h : Ends inName rest) {s : String}
    (hs : s ∈ OperatorTable.signs) : ¬ s.toList <+: x.chars ++ rest := by
  intro hp
  have hx : x.chars <+: x.chars ++ rest := List.prefix_append _ _
  rcases Nat.le_total s.toList.length x.chars.length with hle | hle
  · exact x.noSign s hs (List.prefix_of_prefix_length_le hp hx hle)
  · -- the sign is the name and something more, so its next character comes from what follows
    obtain ⟨t, ht⟩ := List.prefix_of_prefix_length_le hx hp hle
    cases t with
    | nil =>
      rw [List.append_nil] at ht
      exact x.noSign s hs (ht ▸ List.prefix_refl _)
    | cons d t =>
      rw [← ht, List.prefix_append_right_inj] at hp
      obtain ⟨u, hu⟩ := hp
      have hd : inName d = false := h d (by rw [← hu]; rfl)
      have hhead : s.toList.head?.any startsName = true := by
        rw [← ht]
        simpa [Name.chars] using x.startsName_first
      rcases signs_like_names s hs hhead with hall | rfl
      · rw [← ht] at hall
        simp [Name.chars, hd] at hall
      · have hp : x.chars ++ d :: t = ['p', ' '] := ht
        have hmore : x.more = [] := by
          have hlen := congrArg List.length hp
          cases hm : x.more with
          | nil => rfl
          | cons e es => simp [Name.chars, hm] at hlen
        exact x.ne_print (by rw [hmore, (List.cons.inj hp).1])

/-- Letters, digits and underscores are a name where the text does not begin with a sign. -/
theorem scan_unsigned (k : Nat) {c : Char} {cs rest : List Char} (hc : startsName c = true)
    (hcs : ∀ d ∈ cs, inName d = true) (h : Ends inName rest)
    (hsign : ∀ s ∈ OperatorTable.signs, ¬ s.toList <+: c :: (cs ++ rest)) :
    scan (spaces k ++ (c :: (cs ++ rest))) = some (.word .id (String.ofList (c :: cs)), rest) := by
  obtain ⟨h₁, h₂⟩ := toNat_of_startsName hc
  have hblank : Text.isBlank c = false := isBlank_eq_false (by omega) (by omega)
  have hdigit : Text.isDigit c = false := isDigit_eq_false (by omega) (by omega)
  have hne : ∀ d, startsName d = false → c ≠ d := by
    intro d hd he
    rw [← he, hc] at hd
    cases hd
  have hop : operator? OperatorTable.signs (spaces k) (c :: (cs ++ rest)) = none := by
    refine List.findSome?_eq_none_iff.2 fun s hs => ?_
    rw [afterSign?_eq_none hs (by simpa using hne '.' rfl) (hsign s hs)]
    rfl
  have hname : name? (c :: (cs ++ rest)) = some (.word .id (String.ofList (c :: cs)), rest) := by
    simp only [name?, hc, if_true, takeWhile_append_ends hcs h, dropWhile_append_ends hcs h]
  rw [scan_spaces k (ends_cons hblank _), hop, hname, comment?_eq_none (hne '#' rfl) (hne '/' rfl),
    number?_eq_none hdigit, enclosed?_eq_none (marked?_of_startsName hc)]
  rfl

theorem scan_name (k : Nat) (x : Name) {rest : List Char} (h : Ends inName rest) :
    scan (spaces k ++ (x.chars ++ rest)) = some (x.token, rest) :=
  scan_unsigned k x.startsName_first x.inName_more h fun _ hs => x.not_sign_isPrefix h hs

/-! ## 4. Signs

Signs are tried in order of length, the longest first, so one that fits is taken unless a longer one fits too.
Which signs begin others is found out by going through the table once (`signs_longer`). -/

/-- The characters that make a sign longer. -/
def inSign (c : Char) : Bool := c = '>' || c = '=' || c = '~'

/-- Only two signs can be made longer. -/
def extensible (s : String) : Bool := s = "-" || s = "="

/-- Where one sign begins another one, they are the same, or the first one can be made longer and the
other one goes on with such a character. -/
theorem signs_longer : ∀ s ∈ OperatorTable.signs, ∀ s' ∈ OperatorTable.signs, s.toList <+: s'.toList →
    s' = s ∨ extensible s = true ∧ (s'.toList.drop s.toList.length).head?.any inSign = true := by
  decide

/-- A sign begins with a character that begins nothing else before it is tried. -/
theorem signs_begin : ∀ s ∈ OperatorTable.signs, s ≠ " . " → s.toList.head?.any (fun c =>
    !Text.isBlank c && !Text.isDigit c && (marked? c).isNone && c != '#' && c != '/' && c != '.') = true := by
  decide

theorem signs_sorted : OperatorTable.signs.Pairwise fun a b =>
    b.toList.length ≤ a.toList.length ∧ a ≠ b := by
  decide

/-- What begins a sign, other than the one that begins with a blank. -/
theorem sign_eq_cons {s : String} (hs : s ∈ OperatorTable.signs) (hdot : s ≠ " . ") :
    ∃ c cs, s.toList = c :: cs ∧ Text.isBlank c = false ∧ Text.isDigit c = false ∧ marked? c = none ∧
      c ≠ '#' ∧ c ≠ '/' ∧ c ≠ '.' := by
  have h := signs_begin s hs hdot
  cases hcs : s.toList with
  | nil => rw [hcs] at h; cases h
  | cons c cs =>
    simp only [hcs, List.head?_cons, Option.any_some, Bool.and_eq_true, Bool.not_eq_true',
      bne_iff_ne, Option.isNone_iff_eq_none] at h
    exact ⟨c, cs, rfl, h.1.1.1.1.1, h.1.1.1.1.2, h.1.1.1.2, h.1.1.2, h.1.2, h.2⟩

/-- No sign that is tried earlier fits.  It is as long or longer, so it would begin with the sign that stands
here and go on into what follows. -/
theorem operator?_sign (gap : List Char) {s : String} (hs : s ∈ OperatorTable.signs) (hdot : s ≠ " . ")
    {rest : List Char} (h : extensible s = true → Ends inSign rest) :
    operator? OperatorTable.signs gap (s.toList ++ rest) = some (.symbol s, rest) := by
  obtain ⟨c, cs, hcs, hblank, -, -, -, -, hpoint⟩ := sign_eq_cons hs hdot
  obtain ⟨before, after, hsplit⟩ := List.append_of_mem hs
  refine List.findSome?_eq_some_iff.2 ⟨before, s, after, hsplit, ?_, fun s' hs' => ?_⟩
  · have hp : (c :: cs).isPrefixOf (c :: cs ++ rest) = true :=
      List.isPrefixOf_iff_prefix.2 (List.prefix_append _ _)
    have hdrop : (c :: cs ++ rest).drop (cs.length + 1) = rest := by simp
    simp only [hcs, afterSign?, hblank, Bool.false_eq_true, if_false, hp, if_true, hdrop]
    rfl
  · have hmem : s' ∈ OperatorTable.signs := hsplit ▸ List.mem_append_left _ hs'
    obtain ⟨hlen, hne⟩ : s.toList.length ≤ s'.toList.length ∧ s' ≠ s := by
      have hsorted := signs_sorted
      rw [hsplit, List.pairwise_append] at hsorted
      exact hsorted.2.2 s' hs' s List.mem_cons_self
    rw [afterSign?_eq_none hmem (by simpa [hcs] using hpoint) ?_]
    · rfl
    intro hp
    -- a longer sign would go on into what follows
    obtain ⟨t, ht⟩ := List.prefix_of_prefix_length_le (List.prefix_append s.toList rest) hp hlen
    rcases signs_longer s hs s' hmem ⟨t, ht⟩ with he | ⟨hext, hlong⟩
    · exact hne he
    · rw [← ht, List.prefix_append_right_inj] at hp
      rw [← ht, List.drop_left] at hlong
      cases t with
      | nil => cases hlong
      | cons d t =>
        obtain ⟨u, hu⟩ := hp
        have hd := h hext d (by rw [← hu]; rfl)
        rw [List.head?_cons, Option.any_some, hd] at hlong
        cases hlong

theorem scan_sign (k : Nat) {s : String} (hs : s ∈ OperatorTable.signs) (hdot : s ≠ " . ")
    {rest : List Char} (h : extensible s = true → Ends inSign rest) :
    scan (spaces k ++ (s.toList ++ rest)) = some (.symbol s, rest) := by
  obtain ⟨c, cs, hcs, hblank, hdigit, hmark, hhash, hslash, -⟩ := sign_eq_cons hs hdot
  have hbody : Ends Text.isBlank (s.toList ++ rest) := by rw [hcs]; exact ends_cons hblank _
  rw [scan_spaces k hbody, operator?_sign _ hs hdot h, hcs, List.cons_append,
    comment?_eq_none hhash hslash, number?_eq_none hdigit, enclosed?_eq_none hmark]
  rfl

/-! ## 5. The tokens of a line

The tokens of a line are found one after the other, each in what the one before has left. -/

/-- The text begins with these tokens, and this is left. -/
def Cuts (cs : List Char) (ts : List Term) (rest : List Char) : Prop :=
  scanAll cs = (ts ++ (scanAll rest).1, (scanAll rest).2)

namespace Cuts

theorem refl (cs : List Char) : Cuts cs [] cs := rfl

/-- One more token at the front. -/
theorem step {cs rest rest' : List Char} {t : Term} {ts : List Term} (h : scan cs = some (t, rest))
    (h' : Cuts rest ts rest') : Cuts cs (t :: ts) rest' := by
  unfold Cuts at h' ⊢
  rw [scanAll]
  split
  · rename_i hn
    rw [hn] at h
    cases h
  · rename_i t' rest'' hs
    obtain ⟨rfl, rfl⟩ := Prod.mk.inj (Option.some.inj (h.symm.trans hs))
    rw [h']
    rfl

theorem single {cs rest : List Char} {t : Term} (h : scan cs = some (t, rest)) : Cuts cs [t] rest :=
  step h (refl rest)

theorem trans {cs rest rest' : List Char} {ts ts' : List Term} (h : Cuts cs ts rest)
    (h' : Cuts rest ts' rest') : Cuts cs (ts ++ ts') rest' := by
  unfold Cuts at h h' ⊢
  rw [h, h', List.append_assoc]

end Cuts

/-! ## 6. Spelled texts

What makes one token longer need not make another one longer, but it is simpler to ask for a character that
makes none longer.  A space is such a character, so tokens with spaces between them are always found again
(`Spells.spaced`). -/

/-- The characters that make some token longer. -/
def inToken (c : Char) : Bool := inNumber c || inName c || inSign c

/-- No line break is in the text. -/
def Unbroken (l : List Char) : Prop := ∀ c ∈ l, Text.isLineBreak c = false

theorem isLineBreak_eq_false {c : Char} (h : Text.isBlank c = false) : Text.isLineBreak c = false := by
  cases hc : Text.isLineBreak c with
  | false => rfl
  | true => rw [Text.isBlank_of_isLineBreak hc] at h; cases h

theorem unbroken_of_all {l : List Char} (h : (l.all fun c => !Text.isLineBreak c) = true) : Unbroken l := by
  intro c hc
  simpa using List.all_eq_true.1 h c hc

theorem signs_unbroken : ∀ s ∈ OperatorTable.signs, Unbroken s.toList := by
  have h : ∀ s ∈ OperatorTable.signs, (s.toList.all fun c => !Text.isLineBreak c) = true := by decide
  intro s hs
  exact unbroken_of_all (h s hs)

/-- The text spells these tokens: after any spaces it is cut into them, whatever follows that makes no
token longer. -/
structure Spells (cs : List Char) (ts : List Term) : Prop where
  nonempty : cs ≠ [] ∧ ts ≠ []
  begins : Ends Text.isBlank cs
  unbroken : Unbroken cs
  cuts : ∀ (k : Nat) {rest : List Char}, Ends inToken rest → Cuts (spaces k ++ (cs ++ rest)) ts rest

namespace Spells

/-- A number spells its token, where neither a digit nor a point follows. -/
theorem numeral (n : Numeral) : Spells n.chars [n.token] where
  nonempty := ⟨n.chars_ne_nil, List.cons_ne_nil _ _⟩
  begins := by
    obtain ⟨d, cs, hcs⟩ := n.chars_eq_cons
    rw [hcs]
    exact ends_cons (isBlank_digitChar d) cs
  unbroken c hc := by
    obtain ⟨d, -, rfl⟩ := List.mem_map.1 hc
    exact isLineBreak_eq_false (isBlank_digitChar d)
  cuts k rest h := by
    refine .single (scan_numeral k n (h.mono fun c hc => ?_))
    simp only [inToken, Bool.or_eq_false_iff] at hc
    exact hc.1.1

theorem name (x : Name) : Spells x.chars [x.token] where
  nonempty := ⟨List.cons_ne_nil _ _, List.cons_ne_nil _ _⟩
  begins := ends_cons (isBlank_of_inName (inName_of_startsName x.startsName_first)) _
  unbroken c hc := isLineBreak_eq_false (isBlank_of_inName (x.inName_chars c hc))
  cuts k rest h := by
    refine .single (scan_name k x (h.mono fun c hc => ?_))
    simp only [inToken, Bool.or_eq_false_iff] at hc
    exact hc.1.2

/-- A sign spells its token, where nothing follows that makes it longer. -/
theorem sign {s : String} (hs : s ∈ OperatorTable.signs) (hdot : s ≠ " . ") :
    Spells s.toList [.symbol s] := by
  obtain ⟨c, cs, hcs, hblank, -⟩ := sign_eq_cons hs hdot
  refine ⟨⟨by simp [hcs], List.cons_ne_nil _ _⟩, ?_, signs_unbroken s hs, fun k rest h => ?_⟩
  · rw [hcs]
    exact ends_cons hblank cs
  · refine .single (scan_sign k hs hdot fun _ => h.mono fun c hc => ?_)
    simp only [inToken, Bool.or_eq_false_iff] at hc
    exact hc.2

/-- Tokens may follow each other without a space where the second part makes nothing longer. -/
theorem append {a b : List Char} {ts us : List Term} (h : Spells a ts) (h' : Spells b us)
    (hb : Ends inToken b) : Spells (a ++ b) (ts ++ us) where
  nonempty := ⟨by simp [h.nonempty.1], by simp [h.nonempty.2]⟩
  begins := h.begins.append h.nonempty.1 b
  unbroken := List.forall_mem_append.2 ⟨h.unbroken, h'.unbroken⟩
  cuts k rest hrest := by
    rw [List.append_assoc]
    exact (h.cuts k (hb.append h'.nonempty.1 rest)).trans (h'.cuts 0 hrest)

/-- Anything may follow a space. -/
theorem spaced {a b : List Char} {ts us : List Term} (h : Spells a ts) (h' : Spells b us) :
    Spells (a ++ ' ' :: b) (ts ++ us) where
  nonempty := ⟨by simp, by simp [h.nonempty.2]⟩
  begins := h.begins.append h.nonempty.1 _
  unbroken := List.forall_mem_append.2 ⟨h.unbroken, List.forall_mem_cons.2 ⟨rfl, h'.unbroken⟩⟩
  cuts k rest hrest := by
    rw [List.append_assoc, List.cons_append]
    exact (h.cuts k (ends_cons rfl _)).trans (h'.cuts 1 hrest)

/-- Anything may follow a sign that cannot be made longer. -/
theorem sign_append {s : String} (hs : s ∈ OperatorTable.signs) (hdot : s ≠ " . ")
    (hext : extensible s = false) {b : List Char} {us : List Term} (h : Spells b us) :
    Spells (s.toList ++ b) (.symbol s :: us) := by
  have hsign := sign hs hdot
  refine ⟨⟨by simp [h.nonempty.1], List.cons_ne_nil _ _⟩, hsign.begins.append hsign.nonempty.1 b,
    List.forall_mem_append.2 ⟨hsign.unbroken, h.unbroken⟩, fun k rest hrest => ?_⟩
  rw [List.append_assoc]
  exact .step (scan_sign k hs hdot fun he => by rw [hext] at he; cases he) (h.cuts 0 hrest)

end Spells

/-! ## 7. Lines

The lines of a text are read one after the other, and the number of a line matters only if it fails.  So what
lines are read as can be said for all numbers at once (`Read`), and such facts can be put together. -/

theorem scanAll_nil : scanAll [] = ([], []) := by
  rw [scanAll]; rfl

/-- A line that begins with a character that is not blank is as deep as the spaces before it. -/
theorem depth_spaces (k : Nat) {body : List Char} (hne : body ≠ []) (hb : Ends Text.isBlank body) :
    Text.depth (spaces k ++ body) = k := by
  have hlen : (spaces k).length = k := List.length_replicate
  have hpos : 0 < body.length := List.length_pos_iff.2 hne
  simp only [Text.depth, takeWhile_append_ends isBlank_spaces hb, List.length_append, hlen]
  rw [if_neg (by omega)]

/-- A line is read as the column at which it begins and the tokens that it spells. -/
theorem line_spaces (number k : Nat) {body : List Char} {ts : List Term} (h : Spells body ts) :
    line number (spaces k ++ body) = .ok (.dent k :: ts) := by
  have hcuts : Cuts (spaces k ++ (body ++ [])) ts [] := h.cuts k (ends_nil _)
  unfold Cuts at hcuts
  rw [scanAll_nil, List.append_nil, List.append_nil] at hcuts
  obtain ⟨t, ts, rfl⟩ := List.exists_cons_of_ne_nil h.nonempty.2
  simp only [line, hcuts, depth_spaces k h.nonempty.1 h.begins]

theorem lines_cons {c : Char} (h : Text.isLineBreak c = false) (cs : List Char) :
    Text.lines (c :: cs) = match Text.lines cs with
      | [] => [[c]]
      | l :: ls => (c :: l) :: ls := by
  rw [Text.lines]
  · rw [h]; rfl
  · rintro rest rfl
    cases h

/-- A line ends at the first break. -/
theorem lines_append {l : List Char} (h : Unbroken l) (rest : List Char) :
    Text.lines (l ++ '\n' :: rest) = l :: Text.lines rest := by
  induction l with
  | nil =>
    rw [List.nil_append, Text.lines]
    · rfl
    · intro _ he; cases he
  | cons c l ih =>
    obtain ⟨hc, hl⟩ := List.forall_mem_cons.1 h
    rw [List.cons_append, lines_cons hc, ih hl]

/-- A text without breaks is one line. -/
theorem lines_single {l : List Char} (h : Unbroken l) (hne : l ≠ []) : Text.lines l = [l] := by
  induction l with
  | nil => exact absurd rfl hne
  | cons c l ih =>
    obtain ⟨hc, hl⟩ := List.forall_mem_cons.1 h
    rw [lines_cons hc]
    cases l with
    | nil => rfl
    | cons d l => rw [ih hl (List.cons_ne_nil _ _)]

/-- The text of these lines.  The last one may be ended by a line break or not. -/
def joinLines (ended : Bool) : List (List Char) → List Char
  | [] => []
  | [l] => if ended then l ++ ['\n'] else l
  | l :: ls => l ++ '\n' :: joinLines ended ls

/-- Lines that are not empty and have no breaks in them are found again in the text that they are joined to.
-/
theorem lines_joinLines (ended : Bool) {ls : List (List Char)} (h : ∀ l ∈ ls, Unbroken l ∧ l ≠ []) :
    Text.lines (joinLines ended ls) = ls := by
  induction ls with
  | nil => rfl
  | cons l ls ih =>
    obtain ⟨⟨hl, hne⟩, hls⟩ := List.forall_mem_cons.1 h
    cases ls with
    | nil =>
      cases ended with
      | false => exact lines_single hl hne
      | true => exact lines_append hl []
    | cons l' ls => rw [joinLines, lines_append hl, ih hls]; simp

theorem numberedLines_cons (n : Nat) {l : List Char} (h : l ≠ []) (ls : List (List Char)) :
    numberedLines n (l :: ls) =
      (line n l).bind fun ts => (numberedLines (n + 1) ls).bind fun ts' => .ok (ts ++ ts') := by
  rw [numberedLines]
  · rfl
  · exact h

/-- Lines in a row: those after a line that fails are not looked at. -/
theorem numberedLines_append_eq (n : Nat) (ls ls' : List (List Char)) :
    numberedLines n (ls ++ ls') = (numberedLines n ls).bind fun ts =>
      (numberedLines (n + ls.length) ls').bind fun ts' => .ok (ts ++ ts') := by
  induction ls generalizing n with
  | nil =>
    simp only [List.nil_append, numberedLines, List.length_nil, Nat.add_zero, Except.bind]
    cases numberedLines n ls' <;> rfl
  | cons l ls ih =>
    have hlength : n + (l :: ls).length = n + 1 + ls.length := by
      rw [List.length_cons, Nat.add_right_comm, Nat.add_assoc]
    rw [hlength, List.cons_append]
    by_cases hl : l = []
    · subst hl
      exact ih (n + 1)
    · rw [numberedLines_cons n hl, numberedLines_cons n hl, ih (n + 1)]
      cases line n l with
      | error e => rfl
      | ok us =>
        cases numberedLines (n + 1) ls with
        | error e => rfl
        | ok vs =>
          cases numberedLines (n + 1 + ls.length) ls' with
          | error e => rfl
          | ok ws => exact congrArg Except.ok (List.append_assoc us vs ws).symm

theorem numberedLines_append {n : Nat} {ls ls' : List (List Char)} {ts ts' : List Term}
    (h : numberedLines n ls = .ok ts) (h' : numberedLines (n + ls.length) ls' = .ok ts') :
    numberedLines n (ls ++ ls') = .ok (ts ++ ts') := by
  rw [numberedLines_append_eq, h, Except.bind, h']
  rfl

/-- The lines are read as these tokens, whatever their numbers are. -/
structure Read (ls : List (List Char)) (ts : List Term) : Prop where
  proper : ∀ l ∈ ls, Unbroken l ∧ l ≠ []
  numbered : ∀ n, numberedLines n ls = .ok ts

namespace Read

theorem append {ls ls' : List (List Char)} {ts ts' : List Term} (h : Read ls ts) (h' : Read ls' ts') :
    Read (ls ++ ls') (ts ++ ts') where
  proper := List.forall_mem_append.2 ⟨h.proper, h'.proper⟩
  numbered n := numberedLines_append (h.numbered n) (h'.numbered _)

theorem single (k : Nat) {body : List Char} {ts : List Term} (h : Spells body ts) :
    Read [spaces k ++ body] (.dent k :: ts) := by
  have hne : spaces k ++ body ≠ [] := List.append_ne_nil_of_right_ne_nil _ h.nonempty.1
  constructor
  · intro l hl
    obtain rfl := List.mem_singleton.1 hl
    refine ⟨List.forall_mem_append.2 ⟨fun c hc => ?_, h.unbroken⟩, hne⟩
    rw [List.eq_of_mem_replicate hc]
    rfl
  · intro n
    rw [numberedLines_cons n hne, line_spaces n k h]
    simp only [numberedLines, Except.bind, List.append_nil]

end Read

theorem tokens_joinLines (ended : Bool) {ls : List (List Char)} {ts : List Term} (h : Read ls ts) :
    tokens (String.ofList (joinLines ended ls)) = .ok ts := by
  rw [tokens, String.toList_ofList, lines_joinLines ended h.proper, h.numbered]

end Lexer

end Offside
