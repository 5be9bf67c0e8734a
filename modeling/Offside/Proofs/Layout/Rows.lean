import Offside.Proofs.Layout.Building
import Offside.Proofs.Token.Lossless
/-!
# The lines of a text, before blocks are made of them

A text that can be cut into tokens is a list of rows, and each row is a column and at least one token.  The
first two steps of the layout go through it row by row.  A row stays as it is, unless it has an arrow and
the next row is further in: then the column of the next row comes up right after the arrow (`Laid`).  If the
arrow is the last token of its row, this column is the same as that of the next row, and only one of the
two is kept.
-/

namespace Offside

/-! ## 1. Rows

A row is a line of a text together with the tokens it was cut into.  Its column is the number of blanks at its
start, so it is never negative. -/

namespace Lexer

theorem IsToken.isPlain {t : Term} (h : IsToken t) : Layout.isPlain t = true := by
  cases h <;> rfl

theorem IsToken.isNode_eq {t : Term} (h : IsToken t) : t.isNode = false := by
  cases h <;> rfl

/-- The column at which a row begins. -/
def Row.column (r : Row) : Int := leadingBlanks r.line

theorem Row.cut_eq (r : Row) : r.cut = .dent r.column :: r.tokens := rfl

theorem Row.isPlain (r : Row) : ∀ t ∈ r.tokens, Layout.isPlain t = true :=
  fun t ht => (r.spaced.isToken t ht).isPlain

theorem Row.column_nonneg (r : Row) : 0 ≤ r.column := Int.natCast_nonneg _

/-- No column is negative. -/
theorem dent_nonneg {rows : List Row} {v : Int} (h : .dent v ∈ rows.flatMap Row.cut) : 0 ≤ v := by
  obtain ⟨r, -, h⟩ := List.mem_flatMap.1 h
  rcases List.mem_cons.1 h with hv | h
  · cases hv
    exact r.column_nonneg
  · cases r.isPlain _ h

theorem isNode_of_mem_cut {rows : List Row} {t : Term} (h : t ∈ rows.flatMap Row.cut) :
    t.isNode = false := by
  obtain ⟨r, -, h⟩ := List.mem_flatMap.1 h
  rcases List.mem_cons.1 h with rfl | h
  · rfl
  · exact (r.spaced.isToken t h).isNode_eq

end Lexer

/-! ## 2. What becomes of a row

A row is followed by the column of the next row.  The first step looks ahead from each arrow for the next
column, and within a row this is always the column of the next one.  Once it has been added it counts as the
column of the line, so a second arrow gets none. -/

namespace Layout

/-- What a row may become if the next one is at column `v`. -/
inductive Laid (r : Lexer.Row) (v : Int) : List Term → Prop where
  | same : Laid r v r.cut
  /-- the body after an arrow begins on the row of the arrow -/
  | body {front back : List Term} (htokens : front ++ back = r.tokens) (hlt : r.column < v) :
      Laid r v (.dent r.column :: (front ++ .dent v :: back))

/-- Without its columns a line is the tokens of its row. -/
theorem Laid.filter_eq {r : Lexer.Row} {v : Int} {us : List Term} (h : Laid r v us) :
    us.filter isPlain = r.tokens := by
  have hself : ∀ {ts : List Term}, (∀ t ∈ ts, isPlain t = true) → ts.filter isPlain = ts :=
    List.filter_eq_self.2
  cases h with
  | same => exact hself r.isPlain
  | @body front back htokens _ =>
    have hplain := r.isPlain
    rw [← htokens, List.forall_mem_append] at hplain
    show (front ++ .dent v :: back).filter isPlain = r.tokens
    rw [List.filter_append, hself hplain.1, ← htokens]
    exact congrArg (front ++ ·) (hself hplain.2)

/-- At most one column is added to a row, that of the next one.  The first arrow in the row gets it, if the
next row is further in; for the arrows after that one the next row is no longer further in than the column
they are at. -/
theorem addBodyDents_row {c v : Int} {ts : List Term} (h : ∀ t ∈ ts, isPlain t = true)
    (rest : List Term) :
    addBodyDents c (ts ++ .dent v :: rest) = ts ++ .dent v :: addBodyDents v rest ∨
    c < v ∧ ∃ front back, front ++ back = ts ∧ front ≠ [] ∧
      addBodyDents c (ts ++ .dent v :: rest) =
        front ++ .dent v :: (back ++ .dent v :: addBodyDents v rest) := by
  induction ts with
  | nil => exact .inl rfl
  | cons t ts ih =>
    obtain ⟨ht, hts⟩ := List.forall_mem_cons.1 h
    -- a token that gets no column leaves everything to the tokens after it
    have hpass : addBodyDents c (t :: (ts ++ .dent v :: rest)) =
        t :: addBodyDents c (ts ++ .dent v :: rest) →
        addBodyDents c (t :: ts ++ .dent v :: rest) = t :: ts ++ .dent v :: addBodyDents v rest ∨
        c < v ∧ ∃ front back, front ++ back = t :: ts ∧ front ≠ [] ∧
          addBodyDents c (t :: ts ++ .dent v :: rest) =
            front ++ .dent v :: (back ++ .dent v :: addBodyDents v rest) := by
      intro hcons
      rw [List.cons_append, hcons]
      rcases ih hts with hsame | ⟨hlt, front, back, rfl, -, hbody⟩
      · exact .inl (congrArg (List.cons t) hsame)
      · exact .inr ⟨hlt, t :: front, back, rfl, List.cons_ne_nil _ _, congrArg (List.cons t) hbody⟩
    cases t with
    | dent w => cases ht
    | symbol s =>
      have hnext : nextDent? (ts ++ .dent v :: rest) = some v := nextDent?_append hts _
      by_cases hs : (isArrow s && decide (c < v)) = true
      · refine .inr ⟨of_decide_eq_true (Bool.and_eq_true_iff.1 hs).2, [.symbol s], ts, rfl,
          List.cons_ne_nil _ _, ?_⟩
        have hafter : addBodyDents v (ts ++ .dent v :: rest) = ts ++ .dent v :: addBodyDents v rest := by
          refine addBodyDents_append _ hts (.inr fun w hw => ?_)
          cases hw
          exact Int.le_refl v
        simp only [List.cons_append, addBodyDents, hnext, if_pos hs, hafter, List.nil_append]
      · refine hpass ?_
        simp only [addBodyDents, hnext, if_neg hs]
    | _ => exact hpass rfl

/-- **The first two steps take a text row by row.** -/
theorem exists_laid (r : Lexer.Row) (v : Int) (rest : List Term) :
    ∃ us, Laid r v us ∧ ∀ c, collapseDents (addBodyDents c (r.cut ++ .dent v :: rest)) =
      us ++ collapseDents (.dent v :: addBodyDents v rest) := by
  have hcut : ∀ c, addBodyDents c (r.cut ++ .dent v :: rest) =
      .dent r.column :: addBodyDents r.column (r.tokens ++ .dent v :: rest) := fun _ => rfl
  simp only [hcut]
  have hsame : ∀ ts, collapseDents (.dent r.column :: (r.tokens ++ ts)) = r.cut ++ collapseDents ts :=
    collapseDents_line r.nonempty r.isPlain
  rcases addBodyDents_row r.isPlain rest with h | ⟨hlt, front, back, htokens, hne, h⟩
  · exact ⟨_, .same, fun _ => by rw [h, hsame]⟩
  · have hplain := r.isPlain
    rw [← htokens, List.forall_mem_append] at hplain
    rw [h]
    by_cases hback : back = []
    · -- the arrow is at the end of the row, and its column is dropped again
      subst hback
      rw [List.append_nil] at htokens
      rw [htokens]
      exact ⟨_, .same, fun _ => hsame _⟩
    · refine ⟨_, .body htokens hlt, fun _ => ?_⟩
      rw [collapseDents_line hne hplain.1, collapseDents_line hback hplain.2, List.cons_append,
        List.append_assoc, List.cons_append]

end Layout

end Offside
