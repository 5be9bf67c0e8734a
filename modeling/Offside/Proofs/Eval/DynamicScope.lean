import Offside.Proofs.Eval.Isolation
import Offside.Proofs.Scope.Lookup
/-!
# Evaluation in one environment

A scope is a chain of frames, and every call adds one.  Nothing of that can be seen by a term: all that
evaluation takes from a scope is what the names mean.

To say so, evaluation is set beside a second one, which knows no chains (`flatMeaning`).  It has a single
environment.  A call binds its parameters there, runs the body, and puts the environment back as it was;
everything else is as before.

The two are compared step by step.  Two runs look alike if every name means the same in both, the same has
been printed since they began, and commands and matches will be answered alike (`Alike`), and two computations
track each other if from worlds that look alike they come to the same result, or the same error, in worlds
that look alike (`Tracks`).  Tracking is a congruence, and a new frame on one side is tracked by the saved
environment on the other: the frame hides nothing while it is there, and by isolation the chain below it is
the old one when it is dropped.

Since the runs compared need not have scopes of the same shape, this also says that evaluation in two
scopes that agree comes to the same: both are tracked by the same run in one environment.
-/

namespace Offside

namespace Eval

variable {α β : Type}

/-! ## 1. Evaluation without frames

The second evaluation differs from the first in calls only, where a frame is replaced by a copy of the
environment that is put back at the end. -/

/-- Runs something and puts the scope back as it was, also after a failure. -/
def restoring (x : Eval α) : Eval α := ExceptT.mk fun w =>
  let (r, w') := x.run w
  (r, { w' with scope := w.scope })

/-- The value of a term, where a call opens no frame but puts back what it has bound. -/
def flatStep (r : Meaning) (t : Term) : Eval Term :=
  match t with
  | .node (.action .callBare) _ [x] => restoring do enterBody r (← r.eval x)
  | .node (.action .call) _ [func, args] => do
    let p ← operands r func args
    restoring do
      modify fun w => { w with scope := w.scope.update p.2 }
      enterBody r p.1
  | t => evalStep r t

/-- Evaluation up to a depth, without frames. -/
def flatMeaning : Nat → Meaning
  | 0 => ⟨fun _ => throw .recursion, fun _ => throw .recursion⟩
  | n + 1 =>
    let r := flatMeaning n
    ⟨flatStep r, textStep r⟩

/-! ## 2. Runs that look alike

What has been printed before the two runs began may differ, so both begin with a text of their own and the
same is added to both.  That computations keep the outer frames is part of tracking, as it is needed when a
frame is dropped (`Tracks.inNewFrame`). -/

/-- Every name means the same in both worlds, the same text has been printed since there was only `o` in one
and `o'` in the other, and what is outside is the same. -/
structure Alike (o o' : String) (w w' : World) : Prop where
  scope : w.scope.Agree w'.scope
  printed : ∃ s, w.out = o ++ s ∧ w'.out = o' ++ s
  host : w.toHost = w'.toHost

/-- The computations keep the outer frames, and where they begin alike they end alike, with the same
result. -/
structure Tracks (α : Type) (x y : Eval α) : Prop where
  left : KeepsOuter x
  right : KeepsOuter y
  alike : ∀ {o o' : String} {w w' : World}, Alike o o' w w' →
    (x.run w).1 = (y.run w').1 ∧ Alike o o' (x.run w).2 (y.run w').2

theorem tracks_pure (a : α) : Tracks α (pure a) (pure a) :=
  ⟨keepsOuter_pure a, keepsOuter_pure a, fun hw => ⟨rfl, hw⟩⟩

theorem tracks_throw (e : Error) : Tracks α (throw e) (throw e) :=
  ⟨keepsOuter_throw e, keepsOuter_throw e, fun hw => ⟨rfl, hw⟩⟩

/-- Rows track each other if their steps do.  The first steps give back the same, so the second ones are those
of the same value, and they start in worlds that look alike. -/
theorem Tracks.bind {x y : Eval α} {f g : α → Eval β} (h : Tracks α x y)
    (hf : ∀ a, Tracks β (f a) (g a)) : Tracks β (x >>= f) (y >>= g) where
  left := h.left.bind fun a => (hf a).left
  right := h.right.bind fun a => (hf a).right
  alike {o o' w w'} hw := by
    obtain ⟨hr, hw₁⟩ := h.alike hw
    rw [run_bind, run_bind]
    rcases hx : x.run w with ⟨r, w₁⟩
    rcases hy : y.run w' with ⟨r', w₁'⟩
    rw [hx, hy] at hr hw₁
    obtain rfl : r = r' := hr
    cases r with
    | ok a => exact (hf a).alike hw₁
    | error e => exact ⟨rfl, hw₁⟩

/-- Looking a name up is the only step whose result depends on the scope. -/
theorem tracks_lookup (name : Term) : Tracks Term (lookup name) (lookup name) where
  left := keepsOuter_lookup name
  right := keepsOuter_lookup name
  alike {o o' w w'} hw := by
    cases name with
    | text s =>
      simp only [lookup, run_get_bind, hw.scope s]
      cases w'.scope.get? s with
      | some v => exact ⟨rfl, hw⟩
      | none => exact ⟨rfl, hw⟩
    | _ => exact ⟨rfl, hw⟩

theorem tracks_update (bs : List (String × Term)) :
    Tracks Unit (modify fun w => { w with scope := w.scope.update bs })
      (modify fun w => { w with scope := w.scope.update bs }) where
  left := keepsOuter_update bs
  right := keepsOuter_update bs
  alike hw := ⟨rfl, hw.scope.update bs, hw.printed, hw.host⟩

/-- The line is added to what each side has printed since the beginning, which is the same on both. -/
theorem tracks_printLine (s : String) : Tracks Unit (printLine s) (printLine s) where
  left := keepsOuter_printLine s
  right := keepsOuter_printLine s
  alike {o o' w w'} hw := by
    obtain ⟨p, hp, hp'⟩ := hw.printed
    refine ⟨rfl, hw.scope, ⟨p ++ s ++ "\n", ?_, ?_⟩, hw.host⟩
    · show w.out ++ s ++ "\n" = o ++ (p ++ s ++ "\n")
      simp only [hp, String.append_assoc]
    · show w'.out ++ s ++ "\n" = o' ++ (p ++ s ++ "\n")
      simp only [hp', String.append_assoc]

/-- The same shell answers the same and is the same afterwards. -/
theorem tracks_runCommand (words : List String) : Tracks String (runCommand words) (runCommand words) where
  left := keepsOuter_runCommand words
  right := keepsOuter_runCommand words
  alike {o o' w w'} hw := by
    have hshell : w.shell = w'.shell := congrArg Host.shell hw.host
    have hengine : w.engine = w'.engine := congrArg Host.engine hw.host
    rw [run_runCommand, run_runCommand, hshell]
    exact ⟨rfl, hw.scope, hw.printed, congrArg (Host.mk (w'.shell.after words)) hengine⟩

theorem tracks_findMatch (pattern subject : String) :
    Tracks (Option Match) (findMatch pattern subject) (findMatch pattern subject) where
  left := keepsOuter_findMatch pattern subject
  right := keepsOuter_findMatch pattern subject
  alike {o o' w w'} hw := by
    have hengine : w.engine = w'.engine := congrArg Host.engine hw.host
    rw [run_findMatch, run_findMatch, hengine]
    exact ⟨rfl, hw⟩

/-! ## 3. Frames

Two facts about frames.  A new frame binds nothing, so that every name means what it meant; and when it is
dropped, the chain below it is what it was, since no computation that comes up here writes to the outer
frames. -/

theorem Alike.enter {o o' : String} {w w' : World} (h : Alike o o' w w') :
    Alike o o' { w with scope := w.scope.enter } w' := ⟨h.scope, h.printed, h.host⟩

theorem Alike.enter_both {o o' : String} {w w' : World} (h : Alike o o' w w') :
    Alike o o' { w with scope := w.scope.enter } { w' with scope := w'.scope.enter } :=
  ⟨h.scope, h.printed, h.host⟩

theorem keepsScope_restoring (x : Eval α) : KeepsScope (restoring x) := fun _ => rfl

/-- **A new frame is tracked by a saved environment.**  While it is open the frame hides nothing, and
what is left when it is dropped is the scope of before. -/
theorem Tracks.restoring {x y : Eval α} (h : Tracks α x y) :
    Tracks α (inNewFrame x) (restoring y) where
  left := (keepsScope_inNewFrame h.left).outer
  right := (keepsScope_restoring y).outer
  alike {o o' w w'} hw := by
    obtain ⟨hr, hw₁⟩ := h.alike hw.enter
    refine ⟨hr, ?_, hw₁.printed, hw₁.host⟩
    rw [keepsScope_inNewFrame h.left w, keepsScope_restoring y w']
    exact hw.scope

/-- In a new frame nothing is bound, so it makes the two worlds no less alike.  After it the scopes are those
from before. -/
theorem Tracks.inNewFrame {x y : Eval α} (h : Tracks α x y) :
    Tracks α (inNewFrame x) (inNewFrame y) where
  left := (keepsScope_inNewFrame h.left).outer
  right := (keepsScope_inNewFrame h.right).outer
  alike {o o' w w'} hw := by
    obtain ⟨hr, hw₁⟩ := h.alike hw.enter_both
    refine ⟨hr, ?_, hw₁.printed, hw₁.host⟩
    rw [keepsScope_inNewFrame h.left w, keepsScope_inNewFrame h.right w']
    exact hw.scope

/-- Evaluation is made of these steps. -/
theorem congruence_tracks : Congruence Tracks where
  pure := tracks_pure
  throw := tracks_throw
  bind := Tracks.bind
  lookup := tracks_lookup
  update := tracks_update
  printLine := tracks_printLine
  runCommand := tracks_runCommand
  findMatch := tracks_findMatch
  inNewFrame := Tracks.inNewFrame

/-! ## 4. All of evaluation

A call is the one kind of term for which evaluation without frames is defined differently, and by the section
before its two forms track each other.  All other kinds are taken from the congruence.  Two scopes that agree
are then compared by way of the environment that holds the names of the first one. -/

variable {r r' : Meaning}

/-- One level of evaluation tracks one level without frames. -/
theorem tracks_flatStep (h : Related Tracks r r') (t : Term) :
    Tracks Term (evalStep r t) (flatStep r' t) := by
  have hR := congruence_tracks
  unfold flatStep
  split
  · exact Tracks.restoring (hR.bind (h.eval _) fun f => hR.enterBody h f)
  · show Tracks Term (call r _ _) _
    rw [call_eq_operands_runBody]
    refine hR.bind (hR.operands h _ _) fun p => ?_
    exact Tracks.restoring (hR.bindAndEnter h p.1 p.2)
  · exact (hR.related_step h).eval t

/-- Evaluation to any depth tracks evaluation without frames. -/
theorem related_flatMeaning (n : Nat) : Related Tracks (meaning n) (flatMeaning n) := by
  induction n with
  | zero => exact ⟨fun _ => tracks_throw _, fun _ => tracks_throw _⟩
  | succ n ih => exact ⟨tracks_flatStep ih, (congruence_tracks.related_step ih).text⟩

/-- What a run and a run without frames come to. -/
theorem run_flatMeaning (n : Nat) (t : Term) {w : World} {e : Frame Term} (h : w.scope.Agree ⟨e, []⟩)
    (o : String) :
    ∃ r printed k u e', ((meaning n).eval t).run w = (r, ⟨k, u, w.out ++ printed⟩) ∧
      ((flatMeaning n).eval t).run ⟨w.toHost, ⟨e, []⟩, o⟩ = (r, ⟨k, ⟨e', []⟩, o ++ printed⟩) ∧
      u.Agree ⟨e', []⟩ := by
  have ht := (related_flatMeaning n).eval t
  have hw : Alike w.out o w ⟨w.toHost, ⟨e, []⟩, o⟩ := ⟨h, ⟨"", by simp, by simp⟩, rfl⟩
  obtain ⟨hr, hscope, ⟨printed, hout, hout'⟩, hhost⟩ := ht.alike hw
  have houter := ht.right ⟨w.toHost, ⟨e, []⟩, o⟩
  rcases hx : ((meaning n).eval t).run w with ⟨r, ⟨k, u, out⟩⟩
  rcases hy : ((flatMeaning n).eval t).run ⟨w.toHost, ⟨e, []⟩, o⟩ with ⟨r', ⟨k', ⟨e', outer⟩, out'⟩⟩
  rw [hx] at hr hscope hout hhost
  rw [hy] at hr hscope hout' hhost houter
  obtain rfl : r = r' := hr
  obtain rfl : outer = [] := houter
  obtain rfl : k = k' := hhost
  obtain rfl : out = w.out ++ printed := hout
  obtain rfl : out' = o ++ printed := hout'
  exact ⟨r, printed, k, u, e', rfl, rfl, hscope⟩

/-- **Evaluation takes from a scope only what the names mean.**  Take two worlds whose scopes agree, whatever
their frames are, in which commands give the same answers and the engine is the same.  A term has the same
value or the same error in both and prints the same, and at the end the scopes agree again and commands will
again give the same answers.  The same comes of it, and is bound at the end, in the one environment that has
every name of the scope, where calls open no frames. -/
theorem eval_eq_of_agree (n : Nat) (t : Term) {w w' : World} (hscope : w.scope.Agree w'.scope)
    (hshell : ∀ before words, w.shell.answer before words = w'.shell.answer before words)
    (hengine : w.engine = w'.engine) :
    ∃ (r : Except Error Term) (printed : String) (k : Host) (u u' : Scope Term) (e : Frame Term),
      ((meaning n).eval t).run w = (r, ⟨k, u, w.out ++ printed⟩) ∧
      ((meaning n).eval t).run w' = (r, ⟨k, u', w'.out ++ printed⟩) ∧
      ((flatMeaning n).eval t).run ⟨w.toHost, ⟨w.scope.flat, []⟩, w.out⟩ =
        (r, ⟨k, ⟨e, []⟩, w.out ++ printed⟩) ∧
      u.Agree u' ∧ ∀ x, u.get? x = e.get? x := by
  have hhost : w'.toHost = w.toHost := by
    rw [← show Host.mk w.shell w.engine = w.toHost from rfl, Shell.ext hshell, hengine]
  have hflat : w.scope.Agree ⟨w.scope.flat, []⟩ := w.scope.agree_flat
  obtain ⟨r, printed, k, u, e, hrun, hrunFlat, hu⟩ := run_flatMeaning n t hflat w.out
  obtain ⟨r', printed', k', u', e', hrun', hrunFlat', hu'⟩ :=
    run_flatMeaning n t (hscope.symm.trans hflat) w.out
  -- both were compared with the same run in one environment
  rw [hhost, hrunFlat] at hrunFlat'
  obtain ⟨rfl, hworld⟩ := Prod.mk.inj hrunFlat'
  obtain ⟨rfl, hscope', hout⟩ := World.mk.inj hworld
  obtain ⟨rfl, -⟩ := Scope.mk.inj hscope'
  obtain rfl := (String.append_right_inj w.out).1 hout
  refine ⟨r, printed, k, u, u', e, hrun, hrun', hrunFlat, hu.trans hu'.symm, fun x => ?_⟩
  rw [hu x, Scope.get?_single]

/-- Two frames, of which the inner one hides a name of the outer one. -/
def shadowing : Scope Term := ⟨⟨[("x", .int 1)]⟩, [⟨[("x", .int 2), ("y", .int 3)]⟩]⟩

/-- The names of `shadowing` in a single frame. -/
def unshadowed : Scope Term := ⟨⟨[("y", .int 3), ("x", .int 1)]⟩, []⟩

/-- A shell that counts: it answers with the number of commands before. -/
def counting : Shell := ⟨fun before _ => .ok (Nat.repr before.length)⟩

/-- Prints the sum of the two names and what two commands answer. -/
def printSum : Term :=
  .action .block
    [.action .print [.action .add [.datum .var (.text "x"), .datum .var (.text "y")]],
      .action .print [.datum .shellCmd (.text "date")], .action .print [.datum .shellCmd (.text "date")]]

theorem shadowing_agree : shadowing.Agree unshadowed := by
  intro z
  simp only [shadowing, unshadowed, Scope.get?, Frame.get?, List.findSome?_cons, List.findSome?_nil,
    lookup_cons_eq_ite, List.lookup_nil]
  by_cases hx : z = "x"
  · subst hx
    rfl
  · rw [if_neg hx, if_neg hx]

theorem eval_eq_of_agree_shadowing : shadowing.Agree unshadowed ∧
    ∃ (r : Except Error Term) (printed : String) (k : Host) (u u' : Scope Term) (e : Frame Term),
      ((meaning 5).eval printSum).run { shell := counting, scope := shadowing } =
        (r, ⟨k, u, "" ++ printed⟩) ∧
      ((meaning 5).eval printSum).run { shell := counting, scope := unshadowed, out := "3\n" } =
        (r, ⟨k, u', "3\n" ++ printed⟩) ∧
      ((flatMeaning 5).eval printSum).run { shell := counting, scope := ⟨shadowing.flat, []⟩ } =
        (r, ⟨k, ⟨e, []⟩, "" ++ printed⟩) ∧
      u.Agree u' ∧ ∀ x, u.get? x = e.get? x :=
  ⟨shadowing_agree, eval_eq_of_agree 5 printSum shadowing_agree (fun _ _ => rfl) rfl⟩

end Eval

end Offside
