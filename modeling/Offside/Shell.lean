import Offside.Error
import Offside.Text.ShellWords
/-!
# Commands

A command is run outside of the program, and nothing is known of what it does.  All that comes back is what
it prints, or why it prints nothing.  So a shell is given from outside, as a function (`Shell.answer`).  The
answer may depend on the commands that were run before, since a command can change what the next one finds:
two runs of one command need not answer alike.

`Shell.table` is a shell to try programs out with.  It knows a few commands, and no others.
-/

namespace Offside

/-- Why a command gives no text. -/
inductive CommandFailure where
  /-- there is no program of this name -/
  | missing
  /-- it ended with a status other than 0 -/
  | status (code : Nat)
  /-- it could not be started, was stopped, or printed something that is no text; the system says what,
  with the name of a class of errors and a message -/
  | other (name message : String)
  deriving DecidableEq, Repr

/-- The error that a failed command ends the program with. -/
def CommandFailure.error (words : List String) : CommandFailure → Error
  | missing => .fileMissing (words.headD "")
  | status code => .commandFailed words code
  | other name message => .system name message

/-- What commands answer.  `answer before words` is what the command `words` prints after the commands
`before`, of which the first one was run first. -/
structure Shell where
  answer : (before : List (List String)) → (words : List String) → Except CommandFailure String

namespace Shell

/-- The shell after one more command. -/
def after (s : Shell) (words : List String) : Shell := ⟨fun before => s.answer (words :: before)⟩

@[ext]
theorem ext {s s' : Shell} (h : ∀ before words, s.answer before words = s'.answer before words) : s = s' := by
  cases s
  cases s'
  simp only [mk.injEq]
  funext before words
  exact h before words

/-! ## A shell to try programs out with -/

/-- The marks of `echo` that a word stands for, if it stands for any: a hyphen and letters of them. -/
def echoMarks? (word : String) : Option (List Char) :=
  match word.toList with
  | '-' :: c :: cs => if (c :: cs).all ("neE".toList.contains ·) then some (c :: cs) else none
  | _ => none

/-- What `echo` answers: the words after its marks with a blank between them, and a line feed unless there is
a mark against it.  What the mark for escapes asks for is left to other shells. -/
def echo (args : List String) : Except CommandFailure String :=
  let marks := (args.takeWhile fun a => (echoMarks? a).isSome).filterMap echoMarks?
  let line := " ".intercalate (args.drop marks.length)
  if marks.flatten.contains 'e' then .error (.other "OSError" "echo: no escapes here")
  else if marks.flatten.contains 'n' then .ok line
  else .ok (line ++ "\n")

/-- A shell with the commands `echo`, `true` and `false`. -/
def table : Shell where
  answer _ words :=
    match words with
    | "echo" :: args | "/bin/echo" :: args => echo args
    | "true" :: _ | "/bin/true" :: _ => .ok ""
    | "false" :: _ | "/bin/false" :: _ => .error (.status 1)
    | _ => .error .missing

end Shell

end Offside
