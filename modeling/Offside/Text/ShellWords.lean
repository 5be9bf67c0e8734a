/-!
# Words of a command

A command is cut into words at blanks.  Quotes keep blanks; between double quotes a backslash guards a
backslash or a double quote; outside quotes it guards any character.  A quote that is not closed and a
backslash at the end are errors.
-/

namespace Offside.Text

/-- Why a command cannot be cut into words. -/
inductive WordFault where
  | openQuote
  | openEscape

namespace ShellWords

/-- Where the reader stands. -/
inductive Mode where
  /-- between words -/
  | between
  /-- inside a word -/
  | inWord
  /-- inside quotes of this kind -/
  | inQuote (quote : Char)
  /-- after a backslash; the mode it was met in follows -/
  | escaped (quote : Option Char)

def isGap (c : Char) : Bool := c = ' ' || c = '\t' || c = '\r' || c = '\n'

def isQuote (c : Char) : Bool := c = '\'' || c = '"'

/-- The words of the rest of a command, given the word under way (`word`, last character first) and
whether it is one although it may be empty (`started`). -/
def cut : Mode → (word : List Char) → (started : Bool) → List Char →
    Except WordFault (List String)
  | .between, _, _, [] => .ok []
  | .inWord, word, started, [] =>
    .ok (if started || !word.isEmpty then [String.ofList word.reverse] else [])
  | .inQuote _, _, _, [] => .error .openQuote
  | .escaped _, _, _, [] => .error .openEscape
  | .between, word, started, c :: cs =>
    if isGap c then cut .between word started cs
    else if c = '\\' then cut (.escaped none) [] false cs
    else if isQuote c then cut (.inQuote c) [] false cs
    else cut .inWord [c] false cs
  | .inWord, word, started, c :: cs =>
    if isGap c then do
      let more ← cut .between [] false cs
      pure (if started || !word.isEmpty then String.ofList word.reverse :: more else more)
    else if isQuote c then cut (.inQuote c) word started cs
    else if c = '\\' then cut (.escaped none) word started cs
    else cut .inWord (c :: word) started cs
  | .inQuote q, word, _, c :: cs =>
    if c = q then cut .inWord word true cs
    else if c = '\\' && q = '"' then cut (.escaped (some q)) word true cs
    else cut (.inQuote q) (c :: word) true cs
  | .escaped none, word, started, c :: cs => cut .inWord (c :: word) started cs
  | .escaped (some q), word, started, c :: cs =>
    if c = '\\' || c = q then cut (.inQuote q) (c :: word) started cs
    else cut (.inQuote q) (c :: '\\' :: word) started cs

end ShellWords

/-- The words of a command. -/
def shellWords (command : String) : Except WordFault (List String) :=
  ShellWords.cut .between [] false command.toList

end Offside.Text
