import Mathlib.Order.Monotone.Basic
import Offside.Proofs.Layout.Building
/-!
# The width of indentation does not matter

How far in a line begins counts only in comparison with other lines.  If the columns of a text are moved
but stay in order, and column 0 stays where it is, the tree is the same, whether or not the columns fit the
blocks that are open (`layout_rescale`).

The steps of the layout compare columns with each other, and with 0, where the first step and the
outermost block begin.  So the first two steps commute with the move.  The third one is run twice, side by
side: the open blocks of one run are those of the other one with their columns moved (`step_rescale`), and
the columns do not get into the tree.

All this holds for columns of either sign.  A function on the natural numbers is extended to them by
leaving the negative ones where they are (`extended`), so that nothing needs to be known about the sign
of the columns while blocks are read.
-/

namespace Offside

namespace Layout

/-! ## 1. Moving columns

A move keeps the order of columns if it is strictly monotone on all integers, the negative ones included; this
is what comparisons need. -/

/-- Moves a token that is a column. -/
def rescale (ψ : Int → Int) : Term → Term
  | .dent v => .dent (ψ v)
  | t => t

/-- The columns as they are moved by a function on the natural numbers. -/
def onColumns (φ : Nat → Nat) (v : Int) : Int := φ v.toNat

/-- The same, with negative columns left where they are. -/
def extended (φ : Nat → Nat) (v : Int) : Int := if v < 0 then v else onColumns φ v

theorem extended_of_nonneg {φ : Nat → Nat} {v : Int} (hv : 0 ≤ v) : extended φ v = onColumns φ v :=
  if_neg (Int.not_lt.2 hv)

/-- The columns stay in order. -/
def InOrder (ψ : Int → Int) : Prop := ∀ u v, ψ u < ψ v ↔ u < v

namespace InOrder

variable {ψ : Int → Int} {u v : Int}

theorem lt_iff (hψ : InOrder ψ) : ψ u < ψ v ↔ u < v := hψ u v

theorem eq_iff (hψ : InOrder ψ) : ψ u = ψ v ↔ u = v := by
  have huv := hψ u v
  have hvu := hψ v u
  omega

end InOrder

theorem inOrder_extended {φ : Nat → Nat} (hφ : StrictMono φ) : InOrder (extended φ) := by
  intro u v
  have hnat : φ u.toNat < φ v.toNat ↔ u.toNat < v.toNat := hφ.lt_iff_lt
  simp only [extended, onColumns]
  split <;> split <;> omega

/-! ## 2. The steps that add and drop columns

Both steps go through the tokens in order.  The first one compares the column of a line with the next one; the
second one only asks which tokens are columns. -/

section Columns

variable {ψ : Int → Int}

/-- The next column is found by passing over tokens, not by its value. -/
theorem nextDent?_rescale (ts : List Term) :
    nextDent? (ts.map (rescale ψ)) = (nextDent? ts).map ψ := by
  fun_induction nextDent? ts with
  | case1 => rfl
  | case2 v ts => rfl
  | case3 t ts ht ih =>
    cases t with
    | dent v => exact absurd rfl (ht v)
    | _ => exact ih

/-- A column is added after the same arrows.  Whether it is depends on a comparison of two columns, and these
are in the same order after the move. -/
theorem addBodyDents_rescale (hψ : InOrder ψ) (c : Int) (ts : List Term) :
    addBodyDents (ψ c) (ts.map (rescale ψ)) = (addBodyDents c ts).map (rescale ψ) := by
  fun_induction addBodyDents c ts with
  | case1 => rfl
  | case2 c v ts ih => exact congrArg (List.cons (.dent (ψ v))) ih
  | case3 c s ts v hv harrow ih =>
    simp only [List.map_cons, rescale, addBodyDents, nextDent?_rescale, hv, Option.map_some,
      hψ.lt_iff, if_pos harrow, ih]
  | case4 c s ts v hv harrow ih =>
    simp only [List.map_cons, rescale, addBodyDents, nextDent?_rescale, hv, Option.map_some,
      hψ.lt_iff, if_neg harrow, ih]
  | case5 c s ts hv ih =>
    simp only [List.map_cons, rescale, addBodyDents, nextDent?_rescale, hv, Option.map_none, ih]
  | case6 c t ts hdent hsymbol ih =>
    cases t with
    | dent v => exact absurd rfl (hdent v)
    | symbol s => exact absurd rfl (hsymbol s)
    | _ => exact congrArg (List.cons _) ih

/-- Which columns stay depends on where they stand and not on their values. -/
theorem collapseDents_rescale (ts : List Term) :
    collapseDents (ts.map (rescale ψ)) = (collapseDents ts).map (rescale ψ) := by
  fun_induction collapseDents ts with
  | case1 => rfl
  | case2 w v ts ih => exact ih
  | case3 t ts hdents ih =>
    cases t with
    | dent w =>
      cases ts with
      | nil => rfl
      | cons t ts =>
        cases t with
        | dent v => exact absurd rfl (hdents w v ts rfl)
        | _ => exact congrArg (List.cons _) ih
    | _ => exact congrArg (List.cons _) ih

/-! ## 3. Two runs side by side

A state of the second run is a state of the first with the columns of its blocks moved.  One token leads from
such a pair to such a pair, and by induction so do all tokens.  At the end the blocks are closed and the
columns of blocks are forgotten. -/

/-- An open block at another column. -/
def Open.rescale (ψ : Int → Int) (o : Open) : Open := { o with level := ψ o.level }

def State.rescale (ψ : Int → Int) : State → State
  | .reading o outer => .reading (o.rescale ψ) (outer.map (Open.rescale ψ))
  | .ended t level => .ended t (ψ level)

/-- The blocks that are closed are those whose columns are greater, and the move keeps that; what is handed
over does not mention columns. -/
theorem handOver_rescale (hψ : InOrder ψ) (v : Int) (block : Term) (outer : List Open) :
    handOver (ψ v) block (outer.map (Open.rescale ψ)) = (handOver v block outer).rescale ψ := by
  induction outer generalizing block with
  | nil => rfl
  | cons o outer ih =>
    have hlevel : (o.rescale ψ).level = ψ o.level := rfl
    simp only [List.map_cons, handOver, hlevel, hψ.eq_iff, hψ.lt_iff]
    split
    · rfl
    · split
      · exact ih (o.add block).block
      · rfl

/-- **One token is read alike** in both runs.  The three cases of a column are decided by comparisons, and
comparisons are the same after the move. -/
theorem step_rescale (hψ : InOrder ψ) (s : State) (t : Term) :
    step (s.rescale ψ) (Layout.rescale ψ t) = (step s t).rescale ψ := by
  cases s with
  | ended tree level => rfl
  | reading o outer =>
    cases t with
    | dent v =>
      have hlevel : (o.rescale ψ).level = ψ o.level := rfl
      simp only [State.rescale, Layout.rescale, step, hlevel, hψ.eq_iff, hψ.lt_iff]
      split
      · by_cases hempty : o.current.isEmpty = true
        · rw [if_pos hempty, if_pos (show (o.rescale ψ).current.isEmpty = true from hempty)]
        · rw [if_neg hempty, if_neg (show ¬(o.rescale ψ).current.isEmpty = true from hempty)]
          rfl
      · split
        · rfl
        · exact handOver_rescale hψ v o.block outer
    | _ => rfl

theorem foldl_step_rescale (hψ : InOrder ψ) (s : State) (ts : List Term) :
    (ts.map (Layout.rescale ψ)).foldl step (s.rescale ψ) = (ts.foldl step s).rescale ψ := by
  induction ts generalizing s with
  | nil => rfl
  | cons t ts ih => rw [List.map_cons, List.foldl_cons, step_rescale hψ, ih, List.foldl_cons]

theorem close_rescale (o : Open) (outer : List Open) :
    (close (o.rescale ψ) (outer.map (Open.rescale ψ))).1 = (close o outer).1 := by
  induction outer generalizing o with
  | nil => rfl
  | cons p outer ih => exact ih (p.add o.block)

theorem result_rescale (s : State) : (s.rescale ψ).result.1 = s.result.1 := by
  cases s with
  | ended tree level => rfl
  | reading o outer => exact close_rescale o outer

theorem blocks_rescale (hψ : InOrder ψ) (level : Int) (ts : List Term) :
    (blocks (ψ level) (ts.map (Layout.rescale ψ))).1 = (blocks level ts).1 := by
  have hrun := foldl_step_rescale hψ (.reading { level := level } []) ts
  exact (congrArg (fun s : State => s.result.1) hrun).trans (result_rescale _)

theorem tree_rescale (hψ : InOrder ψ) (hzero : ψ 0 = 0) (ts : List Term) :
    tree (ts.map (Layout.rescale ψ)) = tree ts := by
  have hbodies := addBodyDents_rescale hψ 0 ts
  have hblocks := blocks_rescale hψ 0 (collapseDents (addBodyDents 0 ts))
  rw [hzero] at hbodies hblocks
  rw [tree, hbodies, collapseDents_rescale, hblocks, tree]

end Columns

/-! ## 4. Functions on the natural numbers

The columns of a text are natural numbers, and so a change of width is a function on these.  It is extended to
the integers in a way that keeps the order. -/

theorem map_rescale_extended {φ : Nat → Nat} {ts : List Term} (hpos : ∀ v, .dent v ∈ ts → 0 ≤ v) :
    ts.map (rescale (extended φ)) = ts.map (rescale (onColumns φ)) := by
  refine List.map_congr_left fun t ht => ?_
  cases t with
  | dent v => exact congrArg Term.dent (extended_of_nonneg (hpos v ht))
  | _ => rfl

/-- **The width of indentation does not matter.**  A function that keeps the order of the columns, and
keeps column 0, may be applied to all columns of a list of tokens, also if these fit no open block: the
tree is the same, and the steps that add and drop columns commute with it. -/
theorem layout_rescale {φ : Nat → Nat} (hφ : StrictMono φ) (hzero : φ 0 = 0) {ts : List Term}
    (hpos : ∀ v, .dent v ∈ ts → 0 ≤ v) :
    tree (ts.map (rescale (onColumns φ))) = tree ts ∧
    addBodyDents 0 (ts.map (rescale (onColumns φ))) =
      (addBodyDents 0 ts).map (rescale (onColumns φ)) ∧
    collapseDents (ts.map (rescale (onColumns φ))) =
      (collapseDents ts).map (rescale (onColumns φ)) := by
  have horder := inOrder_extended hφ
  have hstays : extended φ 0 = 0 := by
    rw [extended_of_nonneg (Int.le_refl 0), onColumns, Int.toNat_zero, hzero]
    rfl
  have hbodies := addBodyDents_rescale horder 0 ts
  rw [hstays, map_rescale_extended hpos,
    map_rescale_extended fun v hv => hpos v (mem_addBodyDents hv)] at hbodies
  refine ⟨?_, hbodies, collapseDents_rescale ts⟩
  rw [← map_rescale_extended hpos]
  exact tree_rescale horder hstays ts

/-- Four spaces for two, in a text with a line between the columns of two open blocks. -/
theorem layout_rescale_crooked :
    let ts : List Term := [.dent 0, .word .id "f", .symbol "->", .word .id "a", .dent 4, .word .id "b",
      .dent 2, .word .id "c"]
    let us : List Term := [.dent 0, .word .id "f", .symbol "->", .word .id "a", .dent 8, .word .id "b",
      .dent 4, .word .id "c"]
    ts.map (rescale (onColumns fun v => 2 * v)) = us ∧ tree us = tree ts ∧
      addBodyDents 0 us = (addBodyDents 0 ts).map (rescale (onColumns fun v => 2 * v)) ∧
      collapseDents us = (collapseDents ts).map (rescale (onColumns fun v => 2 * v)) := by
  intro ts us
  have hmono : StrictMono fun v : Nat => 2 * v := fun u v huv => by
    show 2 * u < 2 * v
    omega
  have hpos : ∀ v, .dent v ∈ ts → 0 ≤ v := by
    intro v hv
    simp only [ts, Term.word, List.mem_cons, Term.dent.injEq, reduceCtorEq, List.not_mem_nil, or_false,
      false_or] at hv
    omega
  exact ⟨rfl, layout_rescale hmono rfl hpos⟩

end Layout

end Offside
