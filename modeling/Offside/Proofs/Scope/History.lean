import Mathlib.Data.List.Induction
import Offside.Proofs.Scope.Lookup
/-!
# Scopes and what was bound in them

A scope is a chain of frames, and a frame is a list of bindings in which a name that is bound again keeps
its place.  What a scope stands for is simpler: for each frame that is open, everything that was bound in
it, in the order of time (`History`).  Nothing in a history is ever overwritten.

Every change to a scope is a change to its history, and the scope is the one that the history makes
(`Scope.after_eq_scope`).  So all that can be seen of a scope can be read off the history
(`Scope.after_refines`): a name means the last thing that was bound to it in the innermost frame where
anything was, and the names of a frame come in the order in which they first came up.

What happens between the opening of a frame and its end leaves no trace, since it does not touch the
frames further out (`Scope.outer_applyAll`).
-/

namespace Offside

variable {ν : Type}

/-! ## 1. Changes and histories

The two sides that are compared.  A change to a scope overwrites what a name was bound to.  A change to a
history only adds at its end, or opens or drops a list of bindings. -/

/-- What can be done to a scope. -/
inductive Change (ν : Type) where
  | set (name : String) (v : ν)
  | update (bs : List (String × ν))
  | enter
  | leave

namespace Scope

def apply (s : Scope ν) : Change ν → Scope ν
  | .set x v => s.set x v
  | .update bs => s.update bs
  | .enter => s.enter
  | .leave => s.leave

def applyAll (s : Scope ν) (cs : List (Change ν)) : Scope ν := cs.foldl apply s

/-- The scope after these changes, from one empty frame on. -/
def after (cs : List (Change ν)) : Scope ν := applyAll {} cs

end Scope

/-- For each open frame everything that was bound in it, the first binding first. -/
structure History (ν : Type) where
  here : List (String × ν) := []
  around : List (List (String × ν)) := []

namespace History

/-- The innermost frame first. -/
def frames (h : History ν) : List (List (String × ν)) := h.here :: h.around

def apply (h : History ν) : Change ν → History ν
  | .set x v => { h with here := h.here ++ [(x, v)] }
  | .update bs => { h with here := h.here ++ bs }
  | .enter => { here := [], around := h.frames }
  | .leave =>
    match h.around with
    | [] => h
    | bs :: around => { here := bs, around := around }

def after (cs : List (Change ν)) : History ν := cs.foldl apply {}

/-- The value is the last one that was bound to the name in the innermost frame where one was. -/
def Means (h : History ν) (x : String) (v : ν) : Prop :=
  ∃ inner bs outer, h.frames = inner ++ bs :: outer ∧ (∀ cs ∈ inner, x ∉ cs.map (·.1)) ∧
    ∃ earlier later, bs = earlier ++ (x, v) :: later ∧ x ∉ later.map (·.1)

/-- The names that were bound, in the order in which they first came up. -/
def firstNames (bs : List (String × ν)) : List String := (bs.map (·.1)).eraseDups

/-- The frame that bindings make. -/
def frame (bs : List (String × ν)) : Frame ν := ({} : Frame ν).update bs

/-- The scope that a history makes. -/
def scope (h : History ν) : Scope ν := { top := frame h.here, outer := h.around.map frame }

end History

/-! ## 2. The frame that bindings make

A frame is what is left of its bindings: each name once, at the place where it first came up, with the value
that it had last.  Both are shown by induction from the last binding on, as this is the one that is seen. -/

namespace Frame

/-- A name that is bound anew keeps its place, and a new one comes last. -/
theorem names_put (x : String) (v : ν) (es : List (String × ν)) :
    (put x v es).map (·.1) = if x ∈ es.map (·.1) then es.map (·.1) else es.map (·.1) ++ [x] := by
  induction es with
  | nil => rfl
  | cons e es ih =>
    obtain ⟨n, w⟩ := e
    rw [put]
    by_cases hn : n = x
    · simp [hn]
    · rw [if_neg hn, List.map_cons, ih, List.map_cons]
      by_cases hx : x ∈ es.map (·.1)
      · rw [if_pos hx, if_pos (List.mem_cons_of_mem n hx)]
      · rw [if_neg hx, if_neg (by simpa [Ne.symm hn] using hx), List.cons_append]

/-- A name that is bound again keeps its place, and a new one goes to the end. -/
theorem names_set (f : Frame ν) (x : String) (v : ν) :
    (f.set x v).names = if x ∈ f.names then f.names else f.names ++ [x] :=
  names_put x v f.entries

end Frame

namespace History

theorem frame_append (bs cs : List (String × ν)) : frame (bs ++ cs) = (frame bs).update cs :=
  List.foldl_append

theorem frame_concat (bs : List (String × ν)) (b : String × ν) :
    frame (bs ++ [b]) = (frame bs).set b.1 b.2 :=
  frame_append bs [b]

/-- The names of a frame are those that were ever bound in it, in the order in which they first came up.  By
induction on the bindings from the last one on. -/
theorem names_frame (bs : List (String × ν)) : (frame bs).names = firstNames bs := by
  induction bs using List.reverseRecOn with
  | nil => rfl
  | append_singleton bs b ih =>
    rw [frame_concat, Frame.names_set, ih, firstNames, firstNames, List.map_append,
      List.eraseDups_append]
    by_cases hb : b.1 ∈ bs.map (·.1)
    · rw [if_pos (List.mem_eraseDups.2 hb)]
      simp [List.removeAll, hb]
    · rw [if_neg (fun h => hb (List.mem_eraseDups.1 h))]
      simp [List.removeAll, hb, List.eraseDups_cons]

theorem get?_frame (bs : List (String × ν)) (x : String) : (frame bs).get? x = bs.reverse.lookup x := by
  induction bs using List.reverseRecOn with
  | nil => rfl
  | append_singleton bs b ih =>
    rw [frame_concat, Frame.get?_set, ih, List.reverse_append, List.reverse_singleton,
      List.singleton_append, lookup_cons_eq_ite]

theorem not_mem_names_iff (bs : List (String × ν)) (x : String) :
    x ∉ bs.map (·.1) ↔ ∀ b ∈ bs, (x != b.1) = true := by
  simp only [List.mem_map, not_exists, not_and, bne_iff_ne]
  exact forall₂_congr fun b _ => ne_comm

theorem get?_frame_eq_none_iff (bs : List (String × ν)) (x : String) :
    (frame bs).get? x = none ↔ x ∉ bs.map (·.1) := by
  rw [get?_frame, List.lookup_eq_none_iff, not_mem_names_iff]
  simp only [List.mem_reverse]

/-- What is found in the frame is what was bound last. -/
theorem get?_frame_eq_some_iff (bs : List (String × ν)) (x : String) (v : ν) :
    (frame bs).get? x = some v ↔
      ∃ earlier later, bs = earlier ++ (x, v) :: later ∧ x ∉ later.map (·.1) := by
  rw [get?_frame, List.lookup_eq_some_iff]
  constructor
  · rintro ⟨later, earlier, hbs, hlater⟩
    refine ⟨earlier.reverse, later.reverse, ?_, ?_⟩
    · rw [List.reverse_eq_iff.1 hbs, List.reverse_append, List.reverse_cons, List.append_assoc]
      rfl
    · rw [List.map_reverse, List.mem_reverse, not_mem_names_iff]
      exact hlater
  · rintro ⟨earlier, later, rfl, hlater⟩
    refine ⟨later.reverse, earlier.reverse, ?_, ?_⟩
    · rw [List.reverse_append, List.reverse_cons, List.append_assoc]
      rfl
    · rw [← not_mem_names_iff, List.map_reverse, List.mem_reverse]
      exact hlater

end History

/-! ## 3. The scope that a history makes

Each change is made on both sides, and the scope of the history is the scope again.  That is a simulation in
which the history determines the scope; so it holds after any number of changes, and everything that is read
from a scope can be read from its history. -/

namespace History

/-- Every change to a history is the same change to the scope that it makes. -/
theorem scope_apply (h : History ν) (c : Change ν) : (h.apply c).scope = h.scope.apply c := by
  cases c with
  | set x v =>
    rw [apply, scope, frame_concat]
    rfl
  | update bs =>
    rw [apply, scope, frame_append]
    rfl
  | enter => rfl
  | leave =>
    obtain ⟨here, around⟩ := h
    cases around with
    | nil => rfl
    | cons bs around => rfl

theorem scope_foldl (h : History ν) (cs : List (Change ν)) :
    (cs.foldl apply h).scope = h.scope.applyAll cs := by
  induction cs generalizing h with
  | nil => rfl
  | cons c cs ih => exact (ih (h.apply c)).trans (by rw [scope_apply]; rfl)

theorem frames_scope (h : History ν) : h.scope.top :: h.scope.outer = h.frames.map frame := rfl

theorem names_scope (h : History ν) : h.scope.names = h.frames.flatMap firstNames := by
  rw [Scope.names, frames_scope, List.flatMap_map]
  simp only [names_frame]

theorem get?_scope_eq_some_iff (h : History ν) (x : String) (v : ν) :
    h.scope.get? x = some v ↔ h.Means x v := by
  rw [Scope.get?, frames_scope, List.findSome?_map, List.findSome?_eq_some_iff]
  simp only [Function.comp_apply, get?_frame_eq_none_iff, get?_frame_eq_some_iff, Means]
  refine exists_congr fun inner => exists_congr fun bs => exists_congr fun outer => ?_
  rw [and_comm (a := ∀ cs ∈ inner, x ∉ cs.map (·.1))]

end History

namespace Scope

/-- **A scope is the one that its history makes.** -/
theorem after_eq_scope (cs : List (Change ν)) : after cs = (History.after cs).scope :=
  (History.scope_foldl {} cs).symm

/-- A name has a value if and only if it is among the names. -/
theorem isSome_get?_iff (s : Scope ν) (x : String) : (s.get? x).isSome = true ↔ x ∈ s.names := by
  rw [get?, List.isSome_findSome?, names, List.mem_flatMap, List.any_eq_true]
  refine exists_congr fun f => and_congr_right fun _ => ?_
  rw [Frame.get?, Frame.names, List.lookup_isSome_iff]
  simp only [List.mem_map, beq_iff_eq]
  exact exists_congr fun e => and_congr_right fun _ => eq_comm

/-! ## 4. Frames that are dropped

A list of changes is balanced if it could be the body of a call: frames that it opens it drops again.  Such
changes are made in the innermost frame or inside of it, so the frames around it are left as they are. -/

theorem applyAll_append (s : Scope ν) (cs ds : List (Change ν)) :
    s.applyAll (cs ++ ds) = (s.applyAll cs).applyAll ds :=
  List.foldl_append

end Scope

/-- Every frame that is opened is dropped, and no other one. -/
inductive Balanced : List (Change ν) → Prop where
  | nil : Balanced []
  | set (x : String) (v : ν) {cs : List (Change ν)} (h : Balanced cs) : Balanced (.set x v :: cs)
  | update (bs : List (String × ν)) {cs : List (Change ν)} (h : Balanced cs) : Balanced (.update bs :: cs)
  | frame {cs ds : List (Change ν)} (h : Balanced cs) (h' : Balanced ds) :
      Balanced (.enter :: cs ++ .leave :: ds)

namespace Scope

theorem leave_of_outer {s u : Scope ν} (h : u.outer = s.top :: s.outer) : u.leave = s := by
  rw [leave, h]

/-- Changes that are balanced leave the frames further out alone. -/
theorem outer_applyAll {cs : List (Change ν)} (h : Balanced cs) (s : Scope ν) :
    (s.applyAll cs).outer = s.outer := by
  induction h generalizing s with
  | nil => rfl
  | set x v _ ih => exact ih (s.set x v)
  | update bs _ ih => exact ih (s.update bs)
  | @frame cs ds _ _ ihcs ihds =>
    have hleave : (s.enter.applyAll cs).leave = s := leave_of_outer (ihcs s.enter)
    calc (s.applyAll (.enter :: cs ++ .leave :: ds)).outer
        = ((s.enter.applyAll cs).leave.applyAll ds).outer := by rw [applyAll_append]; rfl
      _ = s.outer := by rw [hleave, ihds]

/-- A frame that is opened and dropped again leaves the scope as it was. -/
theorem applyAll_frame {cs : List (Change ν)} (h : Balanced cs) (s : Scope ν) :
    s.applyAll (.enter :: cs ++ [.leave]) = s := by
  rw [applyAll_append]
  exact leave_of_outer (outer_applyAll h s.enter)

/-- **A scope refines its history.**  After any changes a name means the last thing that was bound to it in
the innermost frame where anything was; it means something if and only if it is among the names; the names
are those of the frames from the inside out, each frame with its names in the order in which they first
came up; the depth is the number of frames around the innermost one.  And whatever is done between the
opening of a frame and its end, afterwards the scope is what it was before. -/
theorem after_refines (cs : List (Change ν)) :
    (∀ x v, (after cs).get? x = some v ↔ (History.after cs).Means x v) ∧
    (∀ x, ((after cs).get? x).isSome = true ↔ x ∈ (after cs).names) ∧
    (after cs).names = (History.after cs).frames.flatMap History.firstNames ∧
    (after cs).top.names = History.firstNames (History.after cs).here ∧
    (after cs).depth = (History.after cs).around.length ∧
    ∀ body, Balanced body → after (cs ++ (.enter :: body ++ [.leave])) = after cs := by
  refine ⟨?_, isSome_get?_iff (after cs), ?_, ?_, ?_, ?_⟩
  · intro x v
    rw [after_eq_scope, History.get?_scope_eq_some_iff]
  · rw [after_eq_scope, History.names_scope]
  · rw [after_eq_scope]
    exact History.names_frame _
  · rw [after_eq_scope]
    exact List.length_map _
  · intro body hbody
    exact (applyAll_append {} cs _).trans (applyAll_frame hbody _)

/-- A name of the outer frame that is bound in the inner one, too, and one that is bound there twice. -/
def shadowing : List (Change Nat) :=
  [.set "a" 1, .set "b" 2, .enter, .set "c" 3, .update [("a", 4), ("c", 5)]]

theorem after_refines_shadowing :
    (after shadowing).get? "c" = some 5 ∧ (History.after shadowing).Means "c" 5 ∧
    (after shadowing).names = ["c", "a", "a", "b"] ∧ (after shadowing).depth = 1 ∧
    Balanced [.set "b" 6, .enter, .set "a" 7, .leave, .set "a" (8 : Nat)] ∧
    after (shadowing ++ (.enter :: [.set "b" 6, .enter, .set "a" 7, .leave, .set "a" 8] ++ [.leave])) =
      after shadowing := by
  have hget : (after shadowing).get? "c" = some 5 := by decide
  have hinner : Balanced [.set "a" (7 : Nat)] := .set "a" 7 .nil
  have hbody : Balanced [.set "b" 6, .enter, .set "a" 7, .leave, .set "a" (8 : Nat)] :=
    .set "b" 6 (.frame hinner (.set "a" 8 .nil))
  obtain ⟨hmeans, -, hnames, -, hdepth, hrestored⟩ := after_refines shadowing
  exact ⟨hget, (hmeans "c" 5).1 hget, hnames.trans (by decide), hdepth.trans (by decide), hbody,
    hrestored _ hbody⟩

end Scope

end Offside
