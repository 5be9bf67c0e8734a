import Offside.Text.Line
import Offside.Text.Decimal
import Offside.Text.WordChar
/-!
# Regular expressions and what they match

The meaning of an expression is a search with a fixed order: the left alternative before the right
one, a greedy repetition longest first, a lazy one shortest first.  `Regex.search` runs an expression
from a spot of a text and hands every way to go on to a continuation, in that order; the first one
that the continuation accepts is the answer.

A repetition goes on as long as its last round moved, so the search ends for every expression.
-/

namespace Offside

/-- One member of a set of characters. -/
inductive SetItem where
  | range (lo hi : Char)
  | digit (inside : Bool)
  | word (inside : Bool)
  | blank (inside : Bool)
  deriving DecidableEq

/-- The lower-case form of a letter, for the Latin, Greek and Cyrillic letters that have one at a fixed
distance.  All other characters are left as they are, also letters whose two forms lie elsewhere. -/
def SetItem.lower (c : Char) : Char :=
  let n := c.toNat
  if 0x41 ≤ n && n ≤ 0x5A then Char.ofNat (n + 32)
  else if 0xC0 ≤ n && n ≤ 0xDE && n != 0xD7 then Char.ofNat (n + 32)
  else if 0x391 ≤ n && n ≤ 0x3A9 && n != 0x3A2 then Char.ofNat (n + 32)
  else if 0x410 ≤ n && n ≤ 0x42F then Char.ofNat (n + 32)
  else if 0x400 ≤ n && n ≤ 0x40F then Char.ofNat (n + 80)
  else c

/-- The upper-case form of a letter, for the same letters. -/
def SetItem.upper (c : Char) : Char :=
  let n := c.toNat
  if 0x61 ≤ n && n ≤ 0x7A then Char.ofNat (n - 32)
  else if 0xE0 ≤ n && n ≤ 0xFE && n != 0xF7 then Char.ofNat (n - 32)
  else if 0x3B1 ≤ n && n ≤ 0x3C9 && n != 0x3C2 then Char.ofNat (n - 32)
  else if 0x430 ≤ n && n ≤ 0x44F then Char.ofNat (n - 32)
  else if 0x450 ≤ n && n ≤ 0x45F then Char.ofNat (n - 80)
  else c

def SetItem.holds : SetItem → Char → Bool
  | range lo hi, c => lo ≤ c && c ≤ hi
  | digit inside, c => Text.isDigit c == inside
  | word inside, c => Text.isWordChar c == inside
  | blank inside, c => Text.isBlank c == inside

/-- A test of one character: it is in one of the items, or, if `outside`, in none.  With `fold` the
case of letters does not count. -/
structure CharTest where
  outside : Bool
  items : List SetItem
  fold : Bool
  deriving DecidableEq

def CharTest.holds (t : CharTest) (c : Char) : Bool :=
  let among (c : Char) := t.items.any fun i => i.holds c
  (among c || t.fold && (among (SetItem.lower c) || among (SetItem.upper c))) != t.outside

/-- Regular expressions. -/
inductive Regex where
  /-- the empty text -/
  | empty
  /-- one character -/
  | one (test : CharTest)
  /-- the start of the text -/
  | start
  /-- the end of the text; with `beforeBreak` also the place before a line feed that ends it -/
  | finish (beforeBreak : Bool)
  /-- a place where a word begins or ends, or, if not `inside`, one where none does; an empty text has
  neither -/
  | wordEdge (inside : Bool)
  | seq (first second : Regex)
  | alt (first second : Regex)
  /-- a numbered group: it remembers the text it matched last -/
  | group (index : Nat) (body : Regex)
  /-- the text that a group remembers -/
  | again (index : Nat) (fold : Bool)
  /-- the body matches here, or, if not `inside`, does not; nothing is consumed -/
  | ahead (inside : Bool) (body : Regex)
  /-- the first way in which the body matches, and no other -/
  | once (body : Regex)
  /-- `least` rounds of the body, and then up to `extra` more (without bound if none is given) -/
  | rounds (least : Nat) (extra : Option Nat) (greedy : Bool) (body : Regex)
  deriving DecidableEq

namespace Regex

/-- A place in a text: how much has been read, the character before it, what is left, and what the
groups remember. -/
structure Spot where
  read : Nat
  before : Option Char
  rest : List Char
  groups : List (Nat × List Char)

/-- The start of a text. -/
def Spot.atStart (text : List Char) : Spot := ⟨0, none, text, []⟩

/-- What a group remembers. -/
def Spot.group? (s : Spot) (index : Nat) : Option (List Char) := s.groups.lookup index

/-- Remembers the text between two spots. -/
def Spot.remember (s : Spot) (index : Nat) (origin : Spot) : Spot :=
  { s with groups := (index, origin.rest.take (s.read - origin.read)) ::
      s.groups.filter (·.1 != index) }

/-- A way to go on from a spot. -/
abbrev Goal := Spot → Option Spot

/-- Runs the body `n` times. -/
def times (body : Spot → Goal → Option Spot) : Nat → Spot → Goal → Option Spot
  | 0, s, k => k s
  | n + 1, s, k => body s fun s' => times body n s' k

/-- Runs the body as often as it moves, up to `extra` times.  `last` is where the round before began.
The first argument bounds the rounds; the text left is enough, since every round but the last moves. -/
def more (body : Spot → Goal → Option Spot) (greedy : Bool) :
    Nat → (extra : Option Nat) → (last : Option Nat) → Spot → Goal → Option Spot
  | 0, _, _, s, k => k s
  | n + 1, extra, last, s, k =>
    if extra = some 0 || last = some s.read then k s
    else
      let round := fun (_ : Unit) =>
        body s fun s' => more body greedy n (extra.map (· - 1)) (some s.read) s' k
      if greedy then (round ()).orElse fun _ => k s
      else (k s).orElse round

/-- Compares texts, without regard to case if `fold`. -/
def sameText (fold : Bool) (a b : List Char) : Bool :=
  if fold then a.map SetItem.lower == b.map SetItem.lower else a == b

/-- Searches from a spot; `k` says which ways of going on are accepted. -/
def search : Regex → Spot → Goal → Option Spot
  | empty, s, k => k s
  | one test, s, k =>
    match s.rest with
    | [] => none
    | c :: rest =>
      if test.holds c then k { s with read := s.read + 1, before := some c, rest := rest } else none
  | start, s, k => if s.read = 0 then k s else none
  | finish beforeBreak, s, k =>
    if s.rest.isEmpty || beforeBreak && s.rest == ['\n'] then k s else none
  | wordEdge inside, s, k =>
    let left := s.before.any Text.isWordChar
    let right := s.rest.head?.any Text.isWordChar
    let empty := s.before.isNone && s.rest.isEmpty
    if (left != right) == inside && !empty then k s else none
  | seq a b, s, k => a.search s fun s' => b.search s' k
  | alt a b, s, k => (a.search s k).orElse fun _ => b.search s k
  | group i a, s, k => a.search s fun s' => k (s'.remember i s)
  | again i fold, s, k =>
    match s.group? i with
    | none => none
    | some t =>
      if sameText fold (s.rest.take t.length) t then
        k { s with read := s.read + t.length, before := t.getLast?.or s.before,
                   rest := s.rest.drop t.length }
      else none
  | ahead inside a, s, k =>
    match a.search s some with
    | some s' => if inside then k { s with groups := s'.groups } else none
    | none => if inside then none else k s
  | once a, s, k => (a.search s some).bind k
  | rounds least extra greedy a, s, k =>
    times a.search least s fun s' =>
      more a.search greedy (s'.rest.length + 2) extra none s' k

end Regex

end Offside
