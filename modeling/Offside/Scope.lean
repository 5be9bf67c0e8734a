import Offside.Term.Printer
/-!
# Names and their values

A frame binds names to values and keeps the order in which the names came up.  A scope is a chain of
frames: a name that the innermost frame does not bind is looked up further out.  Only the innermost
frame is written to.
-/

namespace Offside

/-- The bindings of one frame, in order of first assignment. -/
structure Frame (ν : Type) where
  entries : List (String × ν) := []

namespace Frame

variable {ν : Type}

def get? (f : Frame ν) (name : String) : Option ν := f.entries.lookup name

/-- Puts a value under a name: in the old place if there is one, else at the end. -/
def put (name : String) (v : ν) : List (String × ν) → List (String × ν)
  | [] => [(name, v)]
  | (n, w) :: rest => if n = name then (n, v) :: rest else (n, w) :: put name v rest

def set (f : Frame ν) (name : String) (v : ν) : Frame ν := ⟨put name v f.entries⟩

/-- Binds several names, in order. -/
def update (f : Frame ν) (bs : List (String × ν)) : Frame ν :=
  bs.foldl (fun f b => f.set b.1 b.2) f

def names (f : Frame ν) : List String := f.entries.map (·.1)

/-- Changes every value. -/
def map {μ : Type} (g : ν → μ) (f : Frame ν) : Frame μ := ⟨f.entries.map fun (n, v) => (n, g v)⟩

end Frame

/-- A chain of frames, the innermost first. -/
structure Scope (ν : Type) where
  top : Frame ν := {}
  outer : List (Frame ν) := []

namespace Scope

variable {ν : Type}

/-- The innermost value under a name. -/
def get? (s : Scope ν) (name : String) : Option ν :=
  (s.top :: s.outer).findSome? (·.get? name)

def set (s : Scope ν) (name : String) (v : ν) : Scope ν := { s with top := s.top.set name v }

def update (s : Scope ν) (bs : List (String × ν)) : Scope ν := { s with top := s.top.update bs }

/-- Opens a new frame inside. -/
def enter (s : Scope ν) : Scope ν := { top := {}, outer := s.top :: s.outer }

/-- Drops the innermost frame.  The outermost one stays. -/
def leave (s : Scope ν) : Scope ν :=
  match s.outer with
  | [] => s
  | f :: fs => { top := f, outer := fs }

/-- How many frames there are around the innermost one. -/
def depth (s : Scope ν) : Nat := s.outer.length

/-- The names of all frames, from the inside out. -/
def names (s : Scope ν) : List String := (s.top :: s.outer).flatMap Frame.names

def map {μ : Type} (g : ν → μ) (s : Scope ν) : Scope μ :=
  { top := s.top.map g, outer := s.outer.map (·.map g) }

end Scope

/-! ## How scopes are shown -/

namespace Frame

/-- The bindings of a frame, if they can be written. -/
def shown? (f : Frame Term) : Option String :=
  let pair? : String × Term → Option String := fun (n, v) =>
    v.shown?.map fun s => "(" ++ Text.quoted n ++ ", " ++ s ++ ")"
  match f.entries with
  | [] => some "OrderedDict()"
  | es => (es.mapM pair?).map fun ss => "OrderedDict([" ++ ", ".intercalate ss ++ "])"

end Frame

namespace Scope

/-- A chain of frames from the inside out. -/
def chainShown? : List (Frame Term) → Option String
  | [] => some "None"
  | f :: fs =>
    match f.shown?, chainShown? fs with
    | some s, some r =>
      some ("Frame(depth=" ++ Nat.repr fs.length ++ ", " ++ s ++ ", parent=" ++ r ++ ")")
    | _, _ => none

/-- A scope, if it can be written. -/
def shown? (s : Scope Term) : Option String := chainShown? (s.top :: s.outer)

end Scope

end Offside
