import Offside.Program
import Offside.Tree.Outline
/-!
# The command line

The command line names a file with a program, and arguments for it.  Flags say what else is shown and
done.  A flag has a short and a long name; the long one may be cut as long as it stays clear, and short
ones may be joined.  After `--` nothing is a flag.

File and arguments must stand together: what comes after a flag that follows the file is refused.
-/

namespace Offside

namespace CommandLine

/-! ## 1. Flags -/

inductive Flag where
  | help
  | tokens
  | ast
  | debug
  | dryRun
  | checkTypes
  deriving DecidableEq, Repr

def Flag.all : List Flag := [.help, .tokens, .ast, .debug, .dryRun, .checkTypes]

def Flag.short : Flag → String
  | help => "-h"
  | tokens => "-t"
  | ast => "-a"
  | debug => "-d"
  | dryRun => "-n"
  | checkTypes => "-c"

def Flag.long : Flag → String
  | help => "--help"
  | tokens => "--tokens"
  | ast => "--ast"
  | debug => "--debug"
  | dryRun => "--dry-run"
  | checkTypes => "--check-types"

/-- The flag with a name. -/
def Flag.named? (s : String) : Option Flag := Flag.all.find? fun f => f.short = s || f.long = s

/-- Why the command line is not carried out. -/
inductive Refusal where
  /-- help is asked for -/
  | help
  | wrong
  deriving DecidableEq, Repr

/-- The status with which a refused command line ends. -/
def Refusal.status : Refusal → Nat
  | help => 0
  | wrong => 2

/-! ## 2. Words -/

/-- What a word of the command line is. -/
inductive Arg where
  | plain (s : String)
  /-- the first `--` -/
  | divider
  /-- a flag as it is spelled, if there is one, and what is joined to it -/
  | flag (f : Option Flag) (long : Bool) (tail : Option String)

/-- A number with a minus sign. -/
def isNegative (cs : List Char) : Bool :=
  match cs with
  | '-' :: rest =>
    let rest := if rest.getLast? = some '\n' then rest.dropLast else rest
    let whole := rest.takeWhile Text.isDigit
    match rest.dropWhile Text.isDigit with
    | [] => !whole.isEmpty
    | '.' :: frac => !frac.isEmpty && frac.all Text.isDigit
    | _ => false
  | _ => false

/-- The word before an equals sign and the one after it. -/
def splitEquals (s : String) : String × Option String :=
  let cs := s.toList
  let before := cs.takeWhile (· ≠ '=')
  match cs.drop before.length with
  | _ :: after => (String.ofList before, some (String.ofList after))
  | [] => (s, none)

/-- The flags that a word may be short for, each with what is joined to it. -/
def candidates (s : String) : List (Flag × Bool × Option String) :=
  if s.startsWith "--" then
    let (name, tail) := splitEquals s
    (Flag.all.filter fun f => f.long.startsWith name).map fun f => (f, true, tail)
  else
    let first := String.ofList (s.toList.take 2)
    let tail := String.ofList (s.toList.drop 2)
    (Flag.all.filter fun f => f.short = first).map fun f => (f, false, some tail)

/-- Tells what a word is. -/
def classify (s : String) : Except Refusal Arg :=
  if !s.startsWith "-" || s.length = 1 then .ok (.plain s)
  else
    match Flag.named? s with
    | some f => .ok (.flag (some f) (s.startsWith "--") none)
    | none =>
      let (name, tail) := splitEquals s
      match Flag.named? name, tail with
      | some f, some e => .ok (.flag (some f) (name.startsWith "--") (some ("=" ++ e)))
      | _, _ =>
        match candidates s with
        | [(f, long, tail)] => .ok (.flag (some f) long tail)
        | _ :: _ :: _ => .error .wrong
        | [] =>
          if isNegative s.toList || s.toList.contains ' ' then .ok (.plain s)
          else .ok (.flag none false none)

/-- Tells what each word is. -/
def classifyAll : List String → Except Refusal (List Arg)
  | [] => .ok []
  | s :: ss =>
    if s = "--" then .ok (.divider :: ss.map .plain)
    else do
      let a ← classify s
      return a :: (← classifyAll ss)

/-! ## 3. Orders -/

/-- What the command line asks for. -/
structure Orders where
  flags : List Flag := []
  file : Option String := none
  args : List String := []
  /-- there are words that fit nowhere -/
  extra : Bool := false

/-- A word as it was written. -/
def Arg.word : Arg → String
  | plain s => s
  | divider => "--"
  | flag _ _ _ => ""

def Arg.isDivider : Arg → Bool
  | divider => true
  | _ => false

/-- Takes the words between two flags as the file and the arguments.  A `--` is dropped once from
each. -/
def takeWords (o : Orders) (run : List Arg) : Orders :=
  match run with
  | [] => o
  | _ =>
    let lead := run.takeWhile Arg.isDivider
    match o.file, run.drop lead.length with
    | none, file :: rest =>
      let after := rest.takeWhile Arg.isDivider
      let group := (lead ++ file :: after).map Arg.word
      { o with file := (group.erase "--").head?, args := ((rest.drop after.length).map Arg.word).erase "--" }
    | _, _ => { o with extra := true }

/-- The flags that are joined to a short one, up to a letter that names none; and whether there is
one.  Flags take no values, and a hyphen cannot be joined. -/
def joinedFlags : List Char → Except Refusal (List Flag × Bool)
  | [] => .ok ([], false)
  | c :: cs =>
    if c = '=' || c = '-' then .error .wrong
    else
      match Flag.named? (String.ofList ['-', c]) with
      | some f => do
        let (fs, extra) ← joinedFlags cs
        return (f :: fs, extra)
      | none => .ok ([], true)

/-- Takes a flag, with what is joined to it. -/
def takeFlag (o : Orders) (f : Option Flag) (long : Bool) (tail : Option String) :
    Except Refusal Orders := do
  match f with
  | none => return { o with extra := true }
  | some f =>
    if long && tail.isSome then throw .wrong
    let (fs, extra) ← joinedFlags (tail.getD "").toList
    if (f :: fs).contains .help then throw .help
    return { o with flags := o.flags ++ f :: fs, extra := o.extra || extra }

/-- Takes words one after the other; `run` are those since the last flag. -/
def takeAll (o : Orders) (run : List Arg) : List Arg → Except Refusal Orders
  | [] => .ok (takeWords o run)
  | .flag f long tail :: rest => do
    let o ← takeFlag (takeWords o run) f long tail
    takeAll o [] rest
  | a :: rest => takeAll o (run ++ [a]) rest

/-- A command line that can be carried out. -/
structure Options where
  showTokens : Bool
  showTree : Bool
  debug : Bool
  dryRun : Bool
  checkTypes : Bool
  file : String
  args : List String

/-- Reads a command line. -/
def parse (argv : List String) : Except Refusal Options := do
  let o ← takeAll {} [] (← classifyAll argv)
  match o.file, o.extra with
  | some file, false =>
    let has (f : Flag) := o.flags.contains f
    return ⟨has .tokens, has .ast, has .debug, has .dryRun, has .checkTypes, file, o.args⟩
  | _, _ => throw .wrong

/-! ## 4. Carrying it out -/

/-- Prints in the course of a program. -/
def print (s : String) : Program.Step Unit :=
  modify fun p => { p with desk := { p.desk with out := p.desk.out ++ s } }

/-- Prints the outline of a tree. -/
def printTree (t : Term) : Program.Step Unit := do
  let o := Tree.outline 0 t
  print o.text
  match o.error with
  | some e => throw e
  | none => return ()

/-- Carries out a command line, given the text of the file if there is one.  Gives back the result of
the program, or nothing if it was not run. -/
def execute (o : Options) (source : Option String) : Program.Step (Option Int) := do
  let f : Journal.Filter := { otherwise := o.debug }
  match source with
  | none => throw (.fileMissing o.file)
  | some text =>
    let ts ← Program.readTokens f (String.ofList (Text.unifyBreaks text.toList))
    if o.showTokens then
      match (Term.seq ts).shown? with
      | some s => print (s ++ "\n")
      | none => throw .wrongValue
    let t ← Program.makeTree f (← Program.layOut f ts)
    if o.showTree then printTree t
    if o.dryRun then return none
    return some (← Program.runTree f t (o.file :: o.args) o.checkTypes)

end CommandLine

end Offside
