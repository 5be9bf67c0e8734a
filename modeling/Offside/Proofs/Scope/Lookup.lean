import Offside.Scope
/-!
# What is found in a scope after something was bound

A frame keeps its bindings in order, and a name that is bound again stays in its place.  What is found
under a name does not depend on that: it is the last value that was bound to it (`Frame.get?_set`), and
for a scope, whatever the frames further out bind (`Scope.get?_set`).

So what a scope says is the same whether it is kept in one frame or in many.  Two scopes agree if every
name means the same in both (`Scope.Agree`); binding names and opening a frame keep that up, and every
scope agrees with one that has a single frame (`Scope.agree_flat`).
-/

namespace Offside

variable {ν : Type}

theorem lookup_cons_eq_ite {κ : Type} [BEq κ] [LawfulBEq κ] [DecidableEq κ] (x y : κ) (w : ν)
    (es : List (κ × ν)) : List.lookup x ((y, w) :: es) = if x = y then some w else es.lookup x := by
  by_cases h : x = y
  · rw [if_pos h, h, List.lookup_cons_self]
  · rw [if_neg h, List.lookup_cons, beq_false_of_ne h]

/-- To bind a name changes its own value only. -/
theorem Frame.lookup_put (x y : String) (v : ν) (es : List (String × ν)) :
    (Frame.put y v es).lookup x = if x = y then some v else es.lookup x := by
  induction es with
  | nil => exact lookup_cons_eq_ite x y v []
  | cons e es ih =>
    obtain ⟨n, w⟩ := e
    rw [Frame.put, lookup_cons_eq_ite]
    by_cases hn : n = y
    · subst hn
      rw [if_pos rfl, lookup_cons_eq_ite]
      split <;> rfl
    · rw [if_neg hn, lookup_cons_eq_ite, ih]
      by_cases h : x = n
      · rw [if_pos h, if_pos h, if_neg (h ▸ hn)]
      · rw [if_neg h, if_neg h]

theorem Frame.get?_set (f : Frame ν) (x y : String) (v : ν) :
    (f.set y v).get? x = if x = y then some v else f.get? x :=
  Frame.lookup_put x y v f.entries

theorem Scope.get?_set (s : Scope ν) (x y : String) (v : ν) :
    (s.set y v).get? x = if x = y then some v else s.get? x := by
  simp only [Scope.get?, Scope.set, List.findSome?_cons, Frame.get?_set]
  by_cases h : x = y
  · rw [if_pos h, if_pos h]
  · rw [if_neg h, if_neg h]

/-- A new frame hides nothing. -/
theorem Scope.get?_enter (s : Scope ν) (x : String) : s.enter.get? x = s.get? x := rfl

/-- What is bound to other names makes no difference. -/
theorem Scope.get?_update_of_not_mem (s : Scope ν) {bs : List (String × ν)} {x : String}
    (hx : x ∉ bs.map (·.1)) : (s.update bs).get? x = s.get? x := by
  induction bs generalizing s with
  | nil => rfl
  | cons b bs ih =>
    obtain ⟨hb, hbs⟩ := not_or.1 (mt List.mem_cons.2 hx)
    calc ((s.set b.1 b.2).update bs).get? x = (s.set b.1 b.2).get? x := ih _ hbs
      _ = s.get? x := by rw [Scope.get?_set, if_neg hb]

/-- Of distinct names each is bound to its own value. -/
theorem Scope.get?_update_of_mem (s : Scope ν) {bs : List (String × ν)} (h : (bs.map (·.1)).Nodup)
    {b : String × ν} (hb : b ∈ bs) : (s.update bs).get? b.1 = some b.2 := by
  induction bs generalizing s with
  | nil => cases hb
  | cons a bs ih =>
    obtain ⟨ha, hbs⟩ := List.nodup_cons.1 h
    rcases List.mem_cons.1 hb with rfl | hb
    · calc ((s.set b.1 b.2).update bs).get? b.1 = (s.set b.1 b.2).get? b.1 :=
            Scope.get?_update_of_not_mem _ ha
        _ = some b.2 := by rw [Scope.get?_set, if_pos rfl]
    · exact ih (s.set a.1 a.2) hbs hb

/-- New names go to the end, in order. -/
theorem Frame.update_of_nodup (es bs : List (String × ν)) (h : ((es ++ bs).map (·.1)).Nodup) :
    (⟨es⟩ : Frame ν).update bs = ⟨es ++ bs⟩ := by
  have hput : ∀ (x : String) (v : ν) (es : List (String × ν)), x ∉ es.map (·.1) →
      Frame.put x v es = es ++ [(x, v)] := by
    intro x v es hx
    induction es with
    | nil => rfl
    | cons e es ih =>
      simp only [List.map_cons, List.mem_cons, not_or] at hx
      rw [Frame.put, if_neg (Ne.symm hx.1), ih hx.2, List.cons_append]
  induction bs generalizing es with
  | nil => rw [List.append_nil]; rfl
  | cons b bs ih =>
    have hassoc : es ++ b :: bs = es ++ [b] ++ bs := by simp
    have hb : b.1 ∉ es.map (·.1) := by
      intro hmem
      rw [List.map_append, List.map_cons, List.nodup_append] at h
      exact h.2.2 _ hmem _ List.mem_cons_self rfl
    rw [hassoc] at h ⊢
    rw [← ih (es ++ [b]) h, ← hput b.1 b.2 es hb]
    rfl

/-! ## Scopes that agree

Agreement is an equivalence, and every change that is made in the innermost frame keeps it.  Dropping a frame
does not: two scopes may agree because of what their innermost frames bind. -/

/-- Every name means the same in both scopes, whichever frames bind it. -/
def Scope.Agree (s s' : Scope ν) : Prop := ∀ x, s.get? x = s'.get? x

namespace Scope.Agree

variable {s s' s'' : Scope ν}

theorem symm (h : s.Agree s') : s'.Agree s := fun x => (h x).symm

theorem trans (h : s.Agree s') (h' : s'.Agree s'') : s.Agree s'' := fun x => (h x).trans (h' x)

theorem set (h : s.Agree s') (x : String) (v : ν) : (s.set x v).Agree (s'.set x v) := by
  intro y
  rw [Scope.get?_set, Scope.get?_set, h y]

theorem update (h : s.Agree s') (bs : List (String × ν)) : (s.update bs).Agree (s'.update bs) := by
  induction bs generalizing s s' with
  | nil => exact h
  | cons b bs ih => exact ih (h.set b.1 b.2)

end Scope.Agree

/-! ## A scope in one frame

Every scope has a frame that means the same: all of its names, each bound to what it means.  A name that
several frames bind comes up several times in the list of names, but always with the same value. -/

/-- Every name of the scope, bound to what it means. -/
def Scope.flat (s : Scope ν) : Frame ν :=
  ⟨s.names.eraseDups.filterMap fun x => (s.get? x).map fun v => (x, v)⟩

/-- A list of bindings that is made from a function gives back the function, on the names of the list. -/
theorem lookup_filterMap (g : String → Option ν) (x : String) (ns : List String) :
    (ns.filterMap fun n => (g n).map fun v => (n, v)).lookup x = if x ∈ ns then g x else none := by
  induction ns with
  | nil => rfl
  | cons n ns ih =>
    rw [List.filterMap_cons]
    cases hg : g n with
    | none =>
      simp only [Option.map_none, ih, List.mem_cons]
      by_cases hx : x = n
      · simp [hx, hg]
      · simp [hx]
    | some v =>
      simp only [Option.map_some, lookup_cons_eq_ite, ih, List.mem_cons]
      by_cases hx : x = n
      · simp [hx, hg]
      · simp [hx]

theorem Frame.get?_eq_none {f : Frame ν} {x : String} (h : x ∉ f.names) : f.get? x = none := by
  refine List.lookup_eq_none_iff.2 fun e he => ?_
  have hne : x ≠ e.1 := by
    rintro rfl
    exact h (List.mem_map_of_mem he)
  simpa using hne

theorem Scope.get?_eq_none {s : Scope ν} {x : String} (h : x ∉ s.names) : s.get? x = none := by
  refine List.findSome?_eq_none_iff.2 fun f hf => Frame.get?_eq_none fun hx => ?_
  exact h (List.mem_flatMap.2 ⟨f, hf, hx⟩)

theorem Scope.get?_flat (s : Scope ν) (x : String) : s.flat.get? x = s.get? x := by
  rw [Frame.get?, Scope.flat, lookup_filterMap]
  by_cases hx : x ∈ s.names
  · rw [if_pos (List.mem_eraseDups.2 hx)]
  · rw [if_neg (fun h => hx (List.mem_eraseDups.1 h)), Scope.get?_eq_none hx]

/-- A scope of one frame means what the frame means. -/
theorem Scope.get?_single (f : Frame ν) (x : String) : (⟨f, []⟩ : Scope ν).get? x = f.get? x := by
  rw [Scope.get?, List.findSome?_cons, List.findSome?_nil]
  cases f.get? x <;> rfl

theorem Scope.agree_flat (s : Scope ν) : s.Agree ⟨s.flat, []⟩ := by
  intro x
  rw [Scope.get?_single, Scope.get?_flat]

end Offside
