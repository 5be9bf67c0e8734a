import Offside.Proofs.Layout.Conservation
import Offside.Proofs.Layout.Rows
/-!
# Which lines begin a statement

A line of a text is meant to begin a statement.  It does so if it is further in than all blocks that are
open, for then it begins a block, and if it is as far in as one of them, for then the others inside of that
one are closed and a statement of it is begun.  But a line may also be between the columns of two open
blocks.  Then the inner one is closed, and the line goes on with the statement of the outer one that the
inner block belongs to.  These are the only lines that begin no statement (`leads_iff_fits`).

Which blocks are open when a line is reached can be said without looking at the tokens (`openColumns`).  An
arrow may open a block before the end of its line, but only the one that the next line would have opened
anyway.  So between two lines the open blocks are those that the columns of the lines tell, or there is one
more, at the column of the second line (`Between`).

To speak of a line in the tree, the elements of the tree are taken from left to right, each with whether it
is the first one of its statement (`placed`).  Reading a token adds it at the end of the list, and columns do
not change the list, so the place of a token is known as soon as it is read.
-/

namespace Offside

namespace Layout

/-! ## 1. The first elements of statements

What a tree says about a line is whether its first token is the first element of an `Expr`.  `placed` lists
all elements with this answer.  It is taken of trees and of open blocks alike, and each thing that a round of
`blocks` can do to an open block (add an element, begin a statement, become an element of the block around it)
has one lemma about its list. -/

mutual

/-- The elements of a tree from left to right, each with whether it is the first one of a statement.
`first` is the answer for a tree that is an element itself. -/
def placed (first : Bool) : Term → List (Term × Bool)
  | .node (.phrase .block) _ kids => placedAll false kids
  | .node (.phrase .expr) _ kids => placedAll true kids
  | t => [(t, first)]

def placedAll (first : Bool) : List Term → List (Term × Bool)
  | [] => []
  | t :: ts => placed first t ++ placedAll false ts

end

theorem placed_token {t : Term} (ht : t.isNode = false) (first : Bool) :
    placed first t = [(t, first)] := by
  cases t with
  | node => cases ht
  | _ => rfl

/-- Only the first term of a list can be a first element. -/
theorem placedAll_append (first : Bool) (ts us : List Term) :
    placedAll first (ts ++ us) = placedAll first ts ++ placedAll (first && ts.isEmpty) us := by
  cases ts with
  | nil => simp [placedAll]
  | cons t ts =>
    have hrest : ∀ vs : List Term, placedAll false (vs ++ us) = placedAll false vs ++ placedAll false us := by
      intro vs
      induction vs with
      | nil => rfl
      | cons v vs ih => simp only [List.cons_append, placedAll, ih, List.append_assoc]
    simp [placedAll, hrest]

namespace Open

theorem placed_block (o : Open) (first : Bool) :
    placed first o.block =
      placedAll false (o.finished.map (.phrase .expr)) ++ placedAll true o.current := by
  show placedAll false ((o.finished ++ [o.current]).map (.phrase .expr)) = _
  rw [List.map_append, placedAll_append]
  simp [placedAll, placed, Term.phrase]

theorem placed_new (level : Int) : placed false ({ level := level } : Open).block = [] := rfl

/-- What is added is a first element if nothing has been read of the statement. -/
theorem placed_add (o : Open) (t : Term) :
    placed false (o.add t).block = placed false o.block ++ placed o.current.isEmpty t := by
  simp [placed_block, add, placedAll_append, placedAll]

theorem placed_turn (o : Open) : placed false o.turn.block = placed false o.block := by
  simp [placed_block, turn, placedAll_append, placedAll, placed, Term.phrase]

end Open

/-- The elements that the open blocks hold, from the outside in. -/
def placedHeld : List Open → List (Term × Bool)
  | [] => []
  | o :: outer => placedHeld outer ++ placed false o.block

/-- A block that becomes an element brings its own first elements with it. -/
theorem placedHeld_add_block (o p : Open) (outer : List Open) :
    placedHeld (p.add o.block :: outer) = placedHeld (o :: p :: outer) := by
  have hblock : placed p.current.isEmpty o.block = placed false o.block := by
    rw [Open.placed_block, Open.placed_block]
  simp [placedHeld, Open.placed_add, hblock]

theorem placed_close (o : Open) (outer : List Open) :
    placed false (close o outer).1 = placedHeld (o :: outer) := by
  induction outer generalizing o with
  | nil => rfl
  | cons p outer ih => rw [close, ih, placedHeld_add_block]

theorem placed_result {s : State} (h : Grounded s.opens) : placed false s.result.1 = placedHeld s.opens := by
  cases s with
  | ended => exact h.elim
  | reading o outer => exact placed_close o outer

/-! ## 2. The columns of open blocks

The other half of the state is a list of numbers, the columns of the open blocks.  They fall strictly from the
inside out (`Nested`) and end with 0 (`Grounded`), and these two facts are all that is needed to say which of
them a column closes. -/

/-- The columns of the open blocks, from the inside out. -/
def State.columns (s : State) : List Int := s.opens.map Open.level

/-- The columns of the open blocks after a line.  A line that is further in than all of them opens a block;
any other line closes those that are further in than the line. -/
def afterLine (cols : List Int) (v : Int) : List Int :=
  if cols.all (· < v) then v :: cols else cols.dropWhile (v < ·)

/-- The columns of the open blocks after lines at these columns. -/
def openColumns (vs : List Int) : List Int := vs.foldl afterLine [0]

/-- The column is that of an open block, or it is further in than all of them. -/
def fits (cols : List Int) (v : Int) : Bool := cols.contains v || cols.all (· < v)

/-- The columns of the open blocks fall from the innermost outwards, so once one is not greater than `v` the
rest are not either. -/
theorem mem_dropWhile_le {cols : List Int} (h : cols.Pairwise (· > ·)) {v l : Int}
    (hl : l ∈ cols.dropWhile (v < ·)) : l ≤ v := by
  induction cols with
  | nil => cases hl
  | cons c cols ih =>
    obtain ⟨hc, hcols⟩ := List.pairwise_cons.1 h
    by_cases hvc : v < c
    · rw [List.dropWhile_cons_of_pos (by simpa using hvc)] at hl
      exact ih hcols hl
    · rw [List.dropWhile_cons_of_neg (by simpa using hvc)] at hl
      rcases List.mem_cons.1 hl with rfl | hl
      · omega
      · have := hc l hl
        omega

/-- After a line no block is open that is further in than the line. -/
theorem le_of_mem_afterLine {cols : List Int} (h : cols.Pairwise (· > ·)) {v l : Int}
    (hl : l ∈ afterLine cols v) : l ≤ v := by
  unfold afterLine at hl
  split at hl
  · rename_i hall
    rw [List.all_eq_true] at hall
    rcases List.mem_cons.1 hl with rfl | hl
    · exact Int.le_refl l
    · exact Int.le_of_lt (of_decide_eq_true (hall l hl))
  · exact mem_dropWhile_le h hl

/-- Blocks that are handed over: those that stay open, and whether a statement is begun.  The induction is on
the blocks outside.  Each one takes the finished block as an element; it is closed too if its column is
greater than `v`, and then the next one goes on in the same way.  The first one that is not closed is at the
column `v`, and begins a statement, or it is further out, and then the element just added is the last one of a
statement that goes on.  The outermost block is at column 0, so one is always found. -/
theorem handOver_columns {v : Int} (hv : 0 ≤ v) {outer : List Open} (hg : Grounded outer)
    (hn : Nested outer) (block : Term) :
    ∃ o rest, handOver v block outer = .reading o rest ∧
      (o :: rest).map Open.level = (outer.map Open.level).dropWhile (v < ·) ∧
      o.current.isEmpty = (outer.map Open.level).contains v := by
  induction outer generalizing block with
  | nil => exact hg.elim
  | cons p outer ih =>
    obtain ⟨hlevels, hn⟩ := List.pairwise_cons.1 hn
    rw [handOver]
    by_cases heq : v = p.level
    · refine ⟨_, _, if_pos heq, ?_, ?_⟩
      · simp [heq, Open.turn, Open.add]
      · simp [heq, Open.turn]
    by_cases hlt : v < p.level
    · cases outer with
      | nil =>
        -- the outermost block is at column 0, so nothing closes it
        have hground : p.level = 0 := hg
        omega
      | cons q outer =>
        obtain ⟨o, rest, hover, hcolumns, hempty⟩ := ih hg hn (p.add block).block
        refine ⟨o, rest, ?_, ?_, ?_⟩
        · rw [if_neg heq, if_pos hlt, hover]
        · simp [hcolumns, List.dropWhile_cons, hlt]
        · simp [hempty, heq]
    · refine ⟨_, _, (if_neg heq).trans (if_neg hlt), ?_, ?_⟩
      · simp [hlt, Open.add]
      · have hout : v ∉ outer.map Open.level := by
          intro hmem
          have := hlevels v hmem
          omega
        have hmem : v ∉ (p :: outer).map Open.level := by
          simp only [List.map_cons, List.mem_cons, not_or]
          exact ⟨heq, hout⟩
        rw [List.contains_eq_mem, decide_eq_false hmem]
        exact List.isEmpty_eq_false_iff.2 (current_add_ne_nil p block)

/-- **What a column does** depends on the columns of the open blocks: it opens and closes blocks as
`afterLine` says, and a statement is begun if it fits.

There are three cases, as in the loop of `blocks`.  At the column of the innermost block nothing is opened or
closed, and its next statement begins.  Further in, it is further in than all of them, as the columns are
nested, and a new block has no element yet.  Further out, the innermost block is finished and handed over
(`handOver_columns`), and as `v` is not its column, whether a statement begins is decided by the others. -/
theorem step_columns {s : State} (hg : Grounded s.opens) (hn : Nested s.opens) {v : Int} (hv : 0 ≤ v) :
    ∃ o outer, step s (.dent v) = .reading o outer ∧
      (State.reading o outer).columns = afterLine s.columns v ∧
      o.current.isEmpty = fits s.columns v := by
  cases s with
  | ended => exact hg.elim
  | reading o outer =>
    obtain ⟨hlevels, hn⟩ := List.pairwise_cons.1 hn
    have hcols : (State.reading o outer).columns = o.level :: outer.map Open.level := rfl
    rw [hcols, step]
    by_cases heq : v = o.level
    · have hkeep : afterLine (o.level :: outer.map Open.level) v = o.level :: outer.map Open.level := by
        simp [afterLine, heq]
      rw [if_pos heq, hkeep]
      refine ⟨_, _, rfl, ?_, ?_⟩
      · split
        · rfl
        · rfl
      · split
        · rename_i hempty
          simp [fits, heq, hempty]
        · simp [fits, heq, Open.turn]
    by_cases hlt : o.level < v
    · have hall : (o.level :: outer.map Open.level).all (· < v) = true := by
        simp only [List.all_cons, hlt, decide_true, Bool.true_and, List.all_eq_true, decide_eq_true_eq]
        intro l hl
        exact Int.lt_trans (hlevels l hl) hlt
      refine ⟨_, _, (if_neg heq).trans (if_pos hlt), ?_, ?_⟩
      · rw [afterLine, if_pos hall]
        rfl
      · rw [fits, hall, Bool.or_true]
        rfl
    · have hnot : (o.level :: outer.map Open.level).all (· < v) = false := by simp [hlt]
      cases outer with
      | nil =>
        have hground : o.level = 0 := hg
        omega
      | cons p outer =>
        have hground : Grounded (p :: outer) := hg
        obtain ⟨q, rest, hover, hcolumns, hempty⟩ := handOver_columns hv hground hn o.block
        refine ⟨q, rest, ?_, ?_, ?_⟩
        · rw [if_neg heq, if_neg hlt, hover]
        · rw [afterLine, hnot, if_neg Bool.false_ne_true,
            List.dropWhile_cons_of_pos (by simp; omega)]
          exact hcolumns
        · rw [fits, hnot, Bool.or_false, List.contains_cons, beq_false_of_ne heq, Bool.false_or]
          exact hempty

theorem columns_step_plain {s : State} {t : Term} (ht : isPlain t = true) :
    (step s t).columns = s.columns := by
  cases s with
  | ended => rfl
  | reading o outer =>
    cases t with
    | dent v => cases ht
    | _ => rfl

theorem columns_foldl_plain {s : State} {ts : List Term} (h : ∀ t ∈ ts, isPlain t = true) :
    (ts.foldl step s).columns = s.columns := by
  induction ts generalizing s with
  | nil => rfl
  | cons t ts ih =>
    obtain ⟨ht, hts⟩ := List.forall_mem_cons.1 h
    rw [List.foldl_cons, ih hts, columns_step_plain ht]

/-! ## 3. Elements are added at the end

A column moves elements from one open block to another, but their order from left to right, and whether each
is a first one, stays the same.  So the list of a state only grows, by the token that is read, and what is
known of a token when it is read is still true of the finished tree. -/

/-- A block that is closed stands in the statement around it, with its tokens in their places.  The outermost
block is never closed, since its column is 0. -/
theorem placedHeld_handOver {v : Int} (hv : 0 ≤ v) {o : Open} {outer : List Open} (hg : Grounded outer) :
    placedHeld (handOver v o.block outer).opens = placedHeld (o :: outer) := by
  induction outer generalizing o with
  | nil => exact hg.elim
  | cons p outer ih =>
    rw [handOver, ← placedHeld_add_block]
    split
    · rw [State.opens, placedHeld, Open.placed_turn]
      rfl
    · split
      · cases outer with
        | nil =>
          have hground : p.level = 0 := hg
          omega
        | cons q outer => exact ih hg
      · rfl

/-- A column moves tokens between open and closed blocks, but not among each other. -/
theorem placedHeld_step_dent {s : State} (hg : Grounded s.opens) {v : Int} (hv : 0 ≤ v) :
    placedHeld (step s (.dent v)).opens = placedHeld s.opens := by
  cases s with
  | ended => rfl
  | reading o outer =>
    rw [step]
    split
    · split
      · rfl
      · simp only [State.opens, placedHeld, Open.placed_turn]
    · split
      · simp only [State.opens, placedHeld, Open.placed_new, List.append_nil]
      · cases outer with
        | nil =>
          have hground : o.level = 0 := hg
          omega
        | cons p outer => exact placedHeld_handOver hv hg

/-- A token is added at the end.  It is the first of its statement if nothing has been read of that. -/
theorem placedHeld_step_plain {o : Open} {outer : List Open} {t : Term} (ht : isPlain t = true)
    (hnode : t.isNode = false) :
    placedHeld (step (.reading o outer) t).opens =
      placedHeld (o :: outer) ++ [(t, o.current.isEmpty)] := by
  have hadd : placedHeld (o.add t :: outer) = placedHeld (o :: outer) ++ [(t, o.current.isEmpty)] := by
    simp only [placedHeld, Open.placed_add, placed_token hnode, List.append_assoc]
  cases t with
  | dent v => cases ht
  | _ => exact hadd

/-- Reading tokens adds them at the end, and nothing that is there changes its place. -/
theorem placedHeld_foldl {s : State} {ts : List Term} (hg : Grounded s.opens)
    (hnode : ∀ t ∈ ts, t.isNode = false) (hpos : ∀ v, .dent v ∈ ts → 0 ≤ v) :
    ∃ ps, placedHeld (ts.foldl step s).opens = placedHeld s.opens ++ ps ∧
      ps.map (·.1) = ts.filter isPlain := by
  induction ts generalizing s with
  | nil => exact ⟨[], (List.append_nil _).symm, rfl⟩
  | cons t ts ih =>
    obtain ⟨ht, hts⟩ := List.forall_mem_cons.1 hnode
    have hground : Grounded (step s t).opens :=
      (step_grounded hg fun v hv => hpos v (hv ▸ List.mem_cons_self)).1
    obtain ⟨ps, hps, hfst⟩ := ih hground hts fun v hv => hpos v (List.mem_cons_of_mem _ hv)
    rcases isPlain_or_exists_dent t with hplain | ⟨v, rfl⟩
    · cases s with
      | ended => exact hg.elim
      | reading o outer =>
        refine ⟨(t, o.current.isEmpty) :: ps, ?_, ?_⟩
        · rw [List.foldl_cons, hps, placedHeld_step_plain hplain ht, List.append_assoc]
          rfl
        · rw [List.filter_cons_of_pos hplain, List.map_cons, hfst]
    · refine ⟨ps, ?_, hfst⟩
      rw [List.foldl_cons, hps, placedHeld_step_dent hg (hpos v List.mem_cons_self)]

/-! ## 4. From line to line

`addBodyDents` puts the column of the next line behind an arrow, so a block may be open before its line is
reached.  `Between` is the invariant that allows for this: the open blocks are those that the lines above
tell, or these and the block of the line that comes next.  One row keeps it (`Between.row`), and so do all
rows above a line (`exists_rows`). -/

/-- The state before a line at column `v`.  The open blocks are at the columns `cols`, but the one which
the line opens may be open already. -/
structure Between (cols : List Int) (v : Int) (s : State) : Prop where
  grounded : Grounded s.opens
  nested : Nested s.opens
  columns : s.columns = cols ∨ s.columns = v :: cols ∧ cols.all (· < v) = true

namespace Between

variable {cols : List Int} {v : Int} {s : State}

/-- It makes no difference for the line whether its block is open already. -/
theorem step_dent (h : Between cols v s) (hv : 0 ≤ v) :
    ∃ o outer, step s (.dent v) = .reading o outer ∧
      (State.reading o outer).columns = afterLine cols v ∧ o.current.isEmpty = fits cols v := by
  obtain ⟨o, outer, hstep, hcolumns, hempty⟩ := step_columns h.grounded h.nested hv
  refine ⟨o, outer, hstep, ?_, ?_⟩
  · rcases h.columns with hcols | ⟨hcols, hall⟩
    · rw [hcolumns, hcols]
    · rw [hcolumns, hcols, afterLine, afterLine, if_pos hall, if_neg (by simp),
        List.dropWhile_cons_of_neg (by simp)]
  · rcases h.columns with hcols | ⟨hcols, hall⟩
    · rw [hempty, hcols]
    · rw [hempty, hcols, fits, fits, hall]
      simp

theorem nested_cols (h : Between cols v s) : cols.Pairwise (· > ·) := by
  have hn : s.columns.Pairwise (· > ·) := h.nested
  rcases h.columns with hcols | ⟨hcols, -⟩
  · rwa [hcols] at hn
  · rw [hcols] at hn
    exact (List.pairwise_cons.1 hn).2

/-- The column of the line opens and closes blocks, whatever line comes next. -/
theorem dent (h : Between cols v s) (hv : 0 ≤ v) (w : Int) :
    Between (afterLine cols v) w (step s (.dent v)) := by
  obtain ⟨o, outer, hstep, hcolumns, -⟩ := h.step_dent hv
  refine ⟨(step_grounded h.grounded ?_).1, nested_step h.nested _, .inl ?_⟩
  · intro u hu
    cases hu
    exact hv
  · rw [hstep, hcolumns]

/-- The block that the line opens may as well be opened before. -/
theorem opened (h : Between cols v s) (hv : 0 ≤ v) (hall : cols.all (· < v) = true) :
    Between cols v (step s (.dent v)) := by
  have hnext := h.dent hv v
  refine ⟨hnext.grounded, hnext.nested, .inr ⟨?_, hall⟩⟩
  obtain ⟨o, outer, hstep, hcolumns, -⟩ := h.step_dent hv
  rw [hstep, hcolumns, afterLine, if_pos hall]

theorem plain (h : Between cols v s) {ts : List Term} (hts : ∀ t ∈ ts, isPlain t = true) :
    Between cols v (ts.foldl step s) := by
  refine ⟨(foldl_step_grounded h.grounded ?_).1, nested_foldl_step h.nested ts, ?_⟩
  · intro u hu
    cases hts _ hu
  · rw [columns_foldl_plain hts]
    exact h.columns

/-- **One line.**  After a row the open blocks are at the columns that its own column tells. -/
theorem row {r : Lexer.Row} (h : Between cols r.column s) {us : List Term} (hus : Laid r v us) (hv : 0 ≤ v) :
    Between (afterLine cols r.column) v (us.foldl step s) := by
  have hline := h.dent r.column_nonneg v
  cases hus with
  | same => exact hline.plain r.isPlain
  | @body front back htokens hlt =>
    have hplain := r.isPlain
    rw [← htokens, List.forall_mem_append] at hplain
    have hall : (afterLine cols r.column).all (· < v) = true := by
      rw [List.all_eq_true]
      intro l hl
      have hle := le_of_mem_afterLine h.nested_cols hl
      exact decide_eq_true (Int.lt_of_le_of_lt hle hlt)
    rw [List.foldl_cons, List.foldl_append, List.foldl_cons]
    exact ((hline.plain hplain.1).opened hv hall).plain hplain.2

end Between

/-- The column of the first of these rows, or the one after them. -/
def firstColumn (rows : List Lexer.Row) (v : Int) : Int := (rows.head?.map Lexer.Row.column).getD v

/-- **All lines above a line.**  What they become before blocks are made, and which blocks are open after
them. -/
theorem exists_rows (rows : List Lexer.Row) {v : Int} (hv : 0 ≤ v) (rest : List Term) :
    ∃ us, (∀ c, ∃ c', collapseDents (addBodyDents c (rows.flatMap Lexer.Row.cut ++ .dent v :: rest)) =
        us ++ collapseDents (addBodyDents c' (.dent v :: rest))) ∧
      us.filter isPlain = rows.flatMap Lexer.Row.tokens ∧
      ∀ cols s, Between cols (firstColumn rows v) s →
        Between ((rows.map Lexer.Row.column).foldl afterLine cols) v (us.foldl step s) := by
  induction rows with
  | nil => exact ⟨[], fun c => ⟨c, rfl⟩, rfl, fun cols s h => h⟩
  | cons r rows ih =>
    obtain ⟨us, hus, hfilter, hbetween⟩ := ih
    obtain ⟨ts, hts⟩ : ∃ ts, rows.flatMap Lexer.Row.cut ++ .dent v :: rest =
        .dent (firstColumn rows v) :: ts := by
      cases rows with
      | nil => exact ⟨rest, rfl⟩
      | cons r' rows => exact ⟨_, rfl⟩
    have hnext : 0 ≤ firstColumn rows v := by
      cases rows with
      | nil => exact hv
      | cons r' rows => exact r'.column_nonneg
    obtain ⟨row, hlaid, hrow⟩ := exists_laid r (firstColumn rows v) ts
    refine ⟨row ++ us, fun c => ?_, ?_, fun cols s h => ?_⟩
    · obtain ⟨c', hc'⟩ := hus c
      refine ⟨c', ?_⟩
      rw [hts] at hc'
      rw [List.flatMap_cons, List.append_assoc, hts, hrow, List.append_assoc, ← hc']
      rfl
    · rw [List.filter_append, hlaid.filter_eq, hfilter, List.flatMap_cons]
    · rw [List.foldl_append]
      exact hbetween _ _ (h.row hlaid hnext)

/-! ## 5. The first token of a line

Behind the lines above there is the column of the line and then its first token.  The column tells whether a
statement begins (`Between.step_dent`), the token is put at the end of the list with that answer, and nothing
that follows changes it. -/

/-- What a text becomes before blocks are made: the lines above a line, the column of the line, its first
token, and other tokens. -/
theorem exists_above (before after : List Lexer.Row) {r : Lexer.Row} {t : Term} {more : List Term}
    (ht : r.tokens = t :: more) :
    ∃ us vs, collapseDents (addBodyDents 0 ((before ++ r :: after).flatMap Lexer.Row.cut)) =
        us ++ .dent r.column :: t :: vs ∧
      us.filter isPlain = before.flatMap Lexer.Row.tokens ∧
      Between (openColumns (before.map Lexer.Row.column)) r.column
        (us.foldl step (.reading { level := 0 } [])) := by
  have hplain : isPlain t = true := r.isPlain t (ht ▸ List.mem_cons_self)
  have hcut : (before ++ r :: after).flatMap Lexer.Row.cut =
      before.flatMap Lexer.Row.cut ++ .dent r.column :: t :: (more ++ after.flatMap Lexer.Row.cut) := by
    rw [List.flatMap_append, List.flatMap_cons, Lexer.Row.cut_eq, ht]
    rfl
  obtain ⟨us, hus, hfilter, hbetween⟩ :=
    exists_rows before r.column_nonneg (t :: (more ++ after.flatMap Lexer.Row.cut))
  obtain ⟨c, hc⟩ := hus 0
  obtain ⟨rest, hrest⟩ := exists_addBodyDents_cons r.column hplain (more ++ after.flatMap Lexer.Row.cut)
  refine ⟨us, collapseDents rest, ?_, hfilter, ?_⟩
  · rw [hcut, hc, addBodyDents, hrest, collapseDents_dent_plain _ hplain, collapseDents_plain hplain]
  · exact hbetween [0] _ ⟨rfl, List.pairwise_singleton _ _, .inl rfl⟩

/-- The place of the first token of a line in the tree: it comes after the tokens of the lines above, and
it is the first element of a statement if the column of the line fits. -/
theorem exists_placed (before after : List Lexer.Row) {r : Lexer.Row} {t : Term} {more : List Term}
    (ht : r.tokens = t :: more) :
    ∃ ps qs, placed false (tree ((before ++ r :: after).flatMap Lexer.Row.cut)) =
        ps ++ (t, fits (openColumns (before.map Lexer.Row.column)) r.column) :: qs ∧
      ps.map (·.1) = before.flatMap Lexer.Row.tokens := by
  obtain ⟨us, vs, hsplit, hfilter, hline⟩ := exists_above before after ht
  have hmem : ∀ u ∈ us ++ .dent r.column :: t :: vs, u ∈ (before ++ r :: after).flatMap Lexer.Row.cut :=
    fun u hu => mem_of_mem_collapse (hsplit ▸ hu)
  have hplain : isPlain t = true := r.isPlain t (ht ▸ List.mem_cons_self)
  have hnode : ∀ u ∈ us ++ .dent r.column :: t :: vs, u.isNode = false :=
    fun u hu => Lexer.isNode_of_mem_cut (hmem u hu)
  have hpos : ∀ v, .dent v ∈ us ++ .dent r.column :: t :: vs → 0 ≤ v :=
    fun v hv => Lexer.dent_nonneg (hmem _ hv)
  simp only [List.mem_append, List.mem_cons] at hnode hpos
  -- the lines above
  obtain ⟨ps, hps, hfst⟩ := placedHeld_foldl (s := .reading { level := 0 } []) rfl
    (fun u hu => hnode u (.inl hu)) (fun v hv => hpos v (.inl hv))
  -- the column of the line and its first token
  obtain ⟨o, outer, hstep, -, hempty⟩ := hline.step_dent r.column_nonneg
  have hheld : placedHeld (o :: outer) = ps := by
    have hdent := placedHeld_step_dent hline.grounded r.column_nonneg
    rw [hstep, hps] at hdent
    exact hdent
  have hfirst := hline.dent r.column_nonneg 0
  rw [hstep] at hfirst
  -- all that comes after it
  have hground := (hfirst.plain (List.forall_mem_singleton.2 hplain)).grounded
  obtain ⟨qs, hqs, -⟩ := placedHeld_foldl hground
    (fun u hu => hnode u (.inr (.inr (.inr hu)))) (fun v hv => hpos v (.inr (.inr (.inr hv))))
  have hend := (foldl_step_grounded hground fun v hv => hpos v (.inr (.inr (.inr hv)))).1
  refine ⟨ps, qs, ?_, hfst.trans hfilter⟩
  rw [tree, hsplit, blocks, List.foldl_append, List.foldl_cons, List.foldl_cons, hstep]
  refine (placed_result hend).trans (hqs.trans ?_)
  show placedHeld (step (.reading o outer) t).opens ++ qs = _
  rw [placedHeld_step_plain hplain (hnode t (.inr (.inr (.inl rfl)))), hheld, hempty, List.append_assoc]
  rfl

theorem fits_iff (cols : List Int) (v : Int) :
    fits cols v = true ↔ v ∈ cols ∨ ∀ l ∈ cols, l < v := by
  simp [fits]

/-- **Which lines begin a statement.**  A text that can be cut into tokens consists of rows, one for each
line that is not empty.  In its tree, the first token of a row comes after the tokens of the rows above, and
it is the first element of a statement exactly if the row is as far in as a block that is open, or further
in than all of them. -/
theorem leads_iff_fits {text : String} {ts : List Term} (h : Lexer.tokens text = .ok ts) :
    ∃ rows : List Lexer.Row,
      rows.map Lexer.Row.line = (Text.lines text.toList).filter (fun l => !l.isEmpty) ∧
      ts = rows.flatMap Lexer.Row.cut ∧
      ∀ before r after, rows = before ++ r :: after →
        ∃ t more ps first qs, r.tokens = t :: more ∧
          placed false (tree ts) = ps ++ (t, first) :: qs ∧
          ps.map (·.1) = before.flatMap Lexer.Row.tokens ∧
          (first = true ↔ r.column ∈ openColumns (before.map Lexer.Row.column) ∨
            ∀ l ∈ openColumns (before.map Lexer.Row.column), l < r.column) := by
  obtain ⟨rows, hlines, rfl⟩ := Lexer.numberedLines_eq_cut h
  refine ⟨rows, hlines, rfl, ?_⟩
  rintro before r after rfl
  obtain ⟨t, more, ht⟩ := List.exists_cons_of_ne_nil r.nonempty
  obtain ⟨ps, qs, hplaced, hfst⟩ := exists_placed before after ht
  exact ⟨t, more, ps, _, qs, ht, hplaced, hfst, fits_iff _ _⟩

/-- Three lines, the last of which is between the columns of the other two. -/
def slanted : String := "a\n    b\n  c\n"

def slantedTokens : List Term :=
  [.dent 0, .word .id "a", .dent 4, .word .id "b", .dent 2, .word .id "c"]

theorem tokens_slanted : Lexer.tokens slanted = .ok slantedTokens := by
  have hcuts : ∀ x ∈ [("a".toList, [Term.word .id "a"]), ("    b".toList, [.word .id "b"]),
      ("  c".toList, [.word .id "c"])], Lexer.Cuts x.1 x.2 [] ∧ x.2 ≠ [] := by
    simp only [List.forall_mem_cons]
    exact ⟨⟨.single rfl, by simp⟩, ⟨.single rfl, by simp⟩, ⟨.single rfl, by simp⟩, List.forall_mem_nil _⟩
  exact (Lexer.tokens_of_cuts (by decide) hcuts).trans rfl

theorem leads_iff_fits_slanted :
    Lexer.tokens slanted = .ok slantedTokens ∧
    ∃ rows : List Lexer.Row,
      rows.map Lexer.Row.line = ["a".toList, "    b".toList, "  c".toList] ∧
      slantedTokens = rows.flatMap Lexer.Row.cut ∧
      ∀ before r after, rows = before ++ r :: after →
        ∃ t more ps first qs, r.tokens = t :: more ∧
          placed false (tree slantedTokens) = ps ++ (t, first) :: qs ∧
          ps.map (·.1) = before.flatMap Lexer.Row.tokens ∧
          (first = true ↔ r.column ∈ openColumns (before.map Lexer.Row.column) ∨
            ∀ l ∈ openColumns (before.map Lexer.Row.column), l < r.column) :=
  ⟨tokens_slanted, leads_iff_fits tokens_slanted⟩

/-- The third line goes on with the statement of the first one. -/
theorem placed_slanted :
    Lexer.tokens slanted = .ok slantedTokens ∧
    tree slantedTokens = .phrase .block [.phrase .expr [.word .id "a",
      .phrase .block [.phrase .expr [.word .id "b"]], .word .id "c"]] ∧
    placed false (tree slantedTokens) =
      [(.word .id "a", true), (.word .id "b", true), (.word .id "c", false)] :=
  ⟨tokens_slanted, rfl, rfl⟩

end Layout

end Offside
