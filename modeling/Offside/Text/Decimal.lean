import Offside.Text.Line
/-!
# Decimal digits and integers as text

A decimal digit of any script counts as a digit.  Each script has its ten digits in a row, so the
table gives the zeros only.  A number and its text are turned into each other as long as the text
has at most `digitLimit` digits.
-/

namespace Offside.Text

/-- The zeros of all scripts that have decimal digits. -/
def zeros : List Nat := [
  0x30, 0x660, 0x6F0, 0x7C0, 0x966, 0x9E6, 0xA66, 0xAE6, 0xB66, 0xBE6, 0xC66, 0xCE6, 0xD66,
  0xDE6, 0xE50, 0xED0, 0xF20, 0x1040, 0x1090, 0x17E0, 0x1810, 0x1946, 0x19D0, 0x1A80, 0x1A90,
  0x1B50, 0x1BB0, 0x1C40, 0x1C50, 0xA620, 0xA8D0, 0xA900, 0xA9D0, 0xA9F0, 0xAA50, 0xABF0,
  0xFF10, 0x104A0, 0x10D30, 0x11066, 0x110F0, 0x11136, 0x111D0, 0x112F0, 0x11450, 0x114D0,
  0x11650, 0x116C0, 0x11730, 0x118E0, 0x11950, 0x11C50, 0x11D50, 0x11DA0, 0x16A60, 0x16AC0,
  0x16B50, 0x1D7CE, 0x1D7D8, 0x1D7E2, 0x1D7EC, 0x1D7F6, 0x1E140, 0x1E2F0, 0x1E950, 0x1FBF0]

/-- The value of a decimal digit. -/
def digitValue? (c : Char) : Option Nat :=
  if c.toNat < 0x80 then
    if 0x30 ≤ c.toNat && c.toNat ≤ 0x39 then some (c.toNat - 0x30) else none
  else (zeros.find? fun z => z ≤ c.toNat && c.toNat < z + 10).map (c.toNat - ·)

def isDigit (c : Char) : Bool := (digitValue? c).isSome

/-- The number that a run of digits denotes, read from left to right. -/
def numeral (ds : List Char) : Nat :=
  ds.foldl (fun n c => 10 * n + (digitValue? c).getD 0) 0

/-- The longest numeral that is read or written has this many digits. -/
def digitLimit : Nat := 4300

/-- The smallest number that is too long to be written. -/
def writingBound : Nat := Nat.pow 10 digitLimit

/-- The decimal text of an integer, unless it is too long. -/
def decimal? (n : Int) : Option String :=
  if n.natAbs < writingBound then
    some (if n < 0 then "-" ++ Nat.repr n.natAbs else Nat.repr n.natAbs)
  else none

/-- Digits, of which an underscore may stand between any two. -/
def digitRun? : List Char → Option (List Char)
  | [] => none
  | [c] => if isDigit c then some [c] else none
  | c :: '_' :: rest => if isDigit c then (digitRun? rest).map (c :: ·) else none
  | c :: rest => if isDigit c then (digitRun? rest).map (c :: ·) else none

/-- The blanks that may stand around a number: all of them but the four that separate records. -/
def isPadding (c : Char) : Bool := isBlank c && !(0x1C ≤ c.toNat && c.toNat ≤ 0x1F)

/-- A number without the blanks around it. -/
def trim (cs : List Char) : List Char :=
  ((cs.dropWhile isPadding).reverse.dropWhile isPadding).reverse

/-- The integer that a text denotes: blanks, perhaps a sign, digits, blanks.  One with too many digits
is not read. -/
def integer? (s : String) : Option Int :=
  let natural? (cs : List Char) : Option Nat :=
    (digitRun? cs).bind fun ds => if ds.length ≤ digitLimit then some (numeral ds) else none
  match trim s.toList with
  | '-' :: cs => (natural? cs).map fun n => -(n : Int)
  | '+' :: cs => (natural? cs).map Int.ofNat
  | cs => (natural? cs).map Int.ofNat

end Offside.Text
