/-!
# Wildcard patterns

A pattern is matched against a whole text: `*` stands for any run of characters, `?` for any one
character, `[abc]` and `[a-c]` for one of a set, `[!abc]` for one outside it.  A bracket that is never
closed stands for itself.
-/

namespace Offside.Text

/-- What one item of a pattern stands for. -/
inductive WildItem where
  /-- any run of characters, also the empty one -/
  | run
  /-- any one character -/
  | any
  /-- one character of a set of ranges, or, if `outside`, one that is in none of them -/
  | set (outside : Bool) (ranges : List (Char × Char))
  /-- this character -/
  | char (c : Char)

namespace WildItem

/-! ## 1. Sets -/

/-- The set between the brackets is cut at hyphens: the last character of one piece and the first of
the next are the ends of a range.  The next `hold` characters are not cut at, and a hyphen at the end
stands for itself. -/
def pieces : (hold : Nat) → List Char → List (List Char)
  | _, [] => [[]]
  | 0, '-' :: b :: rest => [] :: pieces 2 (b :: rest)
  | hold, c :: rest =>
    match pieces (hold - 1) rest with
    | [] => [[c]]
    | p :: ps => (c :: p) :: ps

/-- Joins two neighbouring pieces whose ends are in the wrong order: the empty range goes away with
both its ends. -/
def joinEmpty (p : List Char) : List (List Char) → List (List Char)
  | [] => [p]
  | q :: ps =>
    match p.getLast?, q with
    | some a, b :: q' => if b < a then (p.dropLast ++ q') :: ps else p :: q :: ps
    | _, _ => p :: q :: ps

/-- Drops the empty ranges, from the last to the first. -/
def dropEmpty (ps : List (List Char)) : List (List Char) :=
  ps.foldr joinEmpty []

/-- The single characters and the ranges of a list of pieces. -/
def ranges : List (List Char) → List (Char × Char)
  | [] => []
  | [p] => p.map fun c => (c, c)
  | p :: q :: ps =>
    let own := p.map fun c => (c, c)
    match p.getLast?, q.head? with
    | some a, some b => own ++ (a, b) :: ranges (q :: ps)
    | _, _ => own ++ ranges (q :: ps)

/-- The item for the text between brackets. -/
def ofBracket (stuff : List Char) : WildItem :=
  match stuff with
  | '!' :: inner =>
    match ranges (dropEmpty (pieces 1 inner)) with
    | [] => .any
    | rs => .set true rs
  | inner => .set false (ranges (dropEmpty (pieces 1 inner)))

/-! ## 2. Reading and matching -/

/-- Splits at the bracket that closes a set.  Directly at the start, or after `!`, a closing bracket
belongs to the set. -/
def closing? (cs : List Char) : Option (List Char × List Char) :=
  let lead : List Char :=
    match cs with
    | '!' :: ']' :: _ => ['!', ']']
    | '!' :: _ => ['!']
    | ']' :: _ => [']']
    | _ => []
  let body := (cs.drop lead.length).takeWhile (· ≠ ']')
  match (cs.drop lead.length).drop body.length with
  | ']' :: rest => some (lead ++ body, rest)
  | _ => none

theorem closing?_length {cs stuff rest : List Char} (h : closing? cs = some (stuff, rest)) :
    rest.length < cs.length := by
  simp only [closing?] at h
  split at h
  · rename_i heq
    have hl := congrArg List.length heq
    simp only [List.length_drop, List.length_cons] at hl
    simp only [Option.some.injEq, Prod.mk.injEq] at h
    obtain ⟨-, rfl⟩ := h
    omega
  · cases h

/-- The items of a pattern. -/
def ofPattern : List Char → List WildItem
  | [] => []
  | '*' :: rest => .run :: ofPattern rest
  | '?' :: rest => .any :: ofPattern rest
  | '[' :: rest =>
    match _h : closing? rest with
    | some (stuff, rest') => ofBracket stuff :: ofPattern rest'
    | none => .char '[' :: ofPattern rest
  | c :: rest => .char c :: ofPattern rest
  termination_by cs => cs.length
  decreasing_by
    · simp only [List.length_cons]; omega
    · simp only [List.length_cons]; omega
    · have := closing?_length _h
      simp only [List.length_cons]; omega
    · simp only [List.length_cons]; omega
    · simp only [List.length_cons]; omega

/-- The item stands for this character. -/
def holds : WildItem → Char → Bool
  | run, _ => false
  | any, _ => true
  | set outside rs, c => (rs.any fun r => r.1 ≤ c && c ≤ r.2) != outside
  | char d, c => c == d

/-- The items stand for the whole text. -/
def matchAll : List WildItem → List Char → Bool
  | [], cs => cs.isEmpty
  | run :: items, cs => (suffixes cs).any (matchAll items)
  | item :: items, cs =>
    match cs with
    | [] => false
    | c :: rest => item.holds c && matchAll items rest
where
  /-- The text and all that is left of it after dropping characters from the front. -/
  suffixes : List Char → List (List Char)
    | [] => [[]]
    | c :: cs => (c :: cs) :: suffixes cs

end WildItem

/-- The pattern stands for the whole text. -/
def wildcardMatch (pattern text : String) : Bool :=
  WildItem.matchAll (WildItem.ofPattern pattern.toList) text.toList

end Offside.Text
