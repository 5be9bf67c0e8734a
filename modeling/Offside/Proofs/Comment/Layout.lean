import Offside.Proofs.Comment.Growth
import Offside.Proofs.Layout.Conservation
/-!
# Laying out a text with one comment more

A text is *aligned* if every line begins at the column of the innermost block that is open then: a line
that is further out than the one before goes back to a column that is still open (`aligned`).

A comment on a line of its own, at the column of the line below it, becomes a statement of the block
which that line belongs to.  Nothing else changes: the columns open and close the same blocks, since a
comment that is followed by its own column leaves the stack of open blocks as it is, up to one more
finished statement (`StackGrows`).  Every step keeps that up, and when the block is closed it is one that
has grown (`tree_note`).

A comment at the end of a text and at the first column becomes the last statement (`tree_note_last`).
-/

namespace Offside

namespace Layout

open Comment (Stage Grows GrowsAll Hosts Carries hostSign)

/-! ## 1. Aligned texts

Whether a text is aligned is decided by running the third step of the layout over it and looking at the
innermost open block after each column.  What is used of it is one thing: after a column of an aligned text
the statement that is being read is still empty, so that a comment that comes next is a statement of its own.
-/

/-- The innermost open block is at this column. -/
def State.isAt (column : Int) : State → Bool
  | .reading o _ => o.level = column
  | .ended _ _ => false

/-- Every column leads to an open block at that column. -/
def alignedFrom : State → List Term → Bool
  | _, [] => true
  | s, .dent v :: ts => (step s (.dent v)).isAt v && alignedFrom (step s (.dent v)) ts
  | s, t :: ts => alignedFrom (step s t) ts

/-- Before the first token one block is open. -/
def start : State := .reading { level := 0 } []

/-- The tokens are those of an aligned text. -/
def aligned (ts : List Term) : Bool := alignedFrom start (collapseDents (addBodyDents 0 ts))

/-- The state after these tokens. -/
def stateAfter (ts : List Term) : State := (collapseDents (addBodyDents 0 ts)).foldl step start

/-- A text can be cut in two: the second part has to be aligned from the state that the first one leads to. -/
theorem alignedFrom_append (s : State) (ts us : List Term) :
    alignedFrom s (ts ++ us) = (alignedFrom s ts && alignedFrom (ts.foldl step s) us) := by
  induction ts generalizing s with
  | nil => rfl
  | cons t ts ih =>
    cases t with
    | dent v => simp only [List.cons_append, alignedFrom, List.foldl_cons, ih, Bool.and_assoc]
    | _ => simp only [List.cons_append, alignedFrom, List.foldl_cons, ih]

/-- A column that hands over to a block of its own column begins a statement there. -/
theorem handOver_current {v : Int} {o : Open} {outer' : List Open} (outer : List Open) {b : Term}
    (h : handOver v b outer = .reading o outer') (hv : o.level = v) : o.current = [] := by
  induction outer generalizing b with
  | nil => cases h
  | cons p outer ih =>
    rw [handOver] at h
    split at h
    · cases h
      rfl
    · rename_i hne
      split at h
      · exact ih h
      · cases h
        exact absurd hv.symm hne

/-- After a column nothing of the next statement has been read.  This is what alignment gives: a column that
leads to a block at that column has begun a statement of it. -/
theorem current_eq_nil {s : State} {v : Int} {o : Open} {outer : List Open}
    (h : step s (.dent v) = .reading o outer) (hv : o.level = v) : o.current = [] := by
  cases s with
  | ended => cases h
  | reading p rest =>
    rw [step] at h
    split at h
    · cases h
      split
      · rename_i hempty
        exact List.isEmpty_iff.1 hempty
      · rfl
    · split at h
      · cases h
        rfl
      · exact handOver_current rest h hv

/-! ## 2. Blocks with one comment more

While a block is open it is not known yet what it will be an element of, but the sign before it is the last
thing in the statement around it (`hosted`).  So whether a block may take a comment is said together with the
blocks outside of it. -/

/-- What is read at the end of the open statement is a block that stands to be evaluated. -/
def hosted : List Open → Bool
  | [] => true
  | p :: _ =>
    match p.current.getLast? with
    | some (.symbol s) => hostSign s
    | _ => false

/-- A block with one comment more, which is to be handed to these open blocks. -/
def BlockGrows (outer : List Open) (b b' : Term) : Prop :=
  Stage.laidOut.Notes b b' ∧ hosted outer = true ∨ Grows .laidOut b b'

/-- A statement grows when a block that has grown is handed to it. -/
theorem BlockGrows.statement {p : Open} {outer : List Open} {b b' : Term}
    (h : BlockGrows (p :: outer) b b') :
    Grows .laidOut (.phrase .expr (p.current ++ [b])) (.phrase .expr (p.current ++ [b'])) := by
  rcases h with ⟨hnotes, hhosted⟩ | hgrows
  · refine .here ⟨rfl, (by cases ·), fun _ => ⟨rfl, ?_⟩⟩ hnotes
    simp only [hosted] at hhosted
    split at hhosted
    · rename_i s hlast
      exact ⟨s, hlast, hhosted⟩
    · cases hhosted
  · exact .inside ⟨(fun _ _ _ h => by cases h), (by cases ·), (by cases ·), fun _ => rfl⟩ hgrows

/-- A block grows with one of its statements. -/
theorem grows_block {e e' : Term} (h : Grows .laidOut e e') (above below : List Term) :
    Grows .laidOut (.phrase .block (above ++ e :: below)) (.phrase .block (above ++ e' :: below)) :=
  .inside ⟨(fun _ _ _ h => by cases h), (by cases ·), (by cases ·), (by cases ·)⟩ h

theorem BlockGrows.add {p : Open} {outer : List Open} {b b' : Term} (h : BlockGrows (p :: outer) b b') :
    Grows .laidOut (p.add b).block (p.add b').block := by
  simp only [Open.block, Open.statements, Open.add, List.map_append, List.map_cons, List.map_nil]
  exact grows_block h.statement _ []

/-! ## 3. Stacks with one comment more

The invariant compares the two stacks of open blocks.  They have the same columns and the same unfinished
statements, so every column does the same to both, and every token is added in the same place.  The difference
is in a finished statement of one of the blocks, and it moves outwards as blocks are closed. -/

/-- Of the open blocks one has a finished statement more, which is a comment, or a finished statement
that has grown. -/
inductive StackGrows : Open → List Open → Open → List Open → Prop where
  | note (n : String) (level : Int) (above below : List (List Term)) (current : List Term)
      {outer : List Open} (h : hosted outer = true) :
      StackGrows ⟨level, above ++ below, current⟩ outer
        ⟨level, above ++ [.word .comment n] :: below, current⟩ outer
  | inside {ts ts' : List Term} (h : Grows .laidOut (.phrase .expr ts) (.phrase .expr ts')) (level : Int)
      (above below : List (List Term)) (current : List Term) (outer : List Open) :
      StackGrows ⟨level, above ++ ts :: below, current⟩ outer
        ⟨level, above ++ ts' :: below, current⟩ outer
  | further {p p' : Open} {outer outer' : List Open} (o : Open) (h : StackGrows p outer p' outer') :
      StackGrows o (p :: outer) o (p' :: outer')

/-- The same, once the reading has not ended. -/
inductive StateGrows : State → State → Prop where
  | reading {o o' : Open} {outer outer' : List Open} (h : StackGrows o outer o' outer') :
      StateGrows (.reading o outer) (.reading o' outer')

namespace StackGrows

variable {o o' : Open} {outer outer' : List Open}

theorem level_eq (h : StackGrows o outer o' outer') : o'.level = o.level := by
  cases h <;> rfl

theorem current_eq (h : StackGrows o outer o' outer') : o'.current = o.current := by
  cases h <;> rfl

theorem add (h : StackGrows o outer o' outer') (t : Term) :
    StackGrows (o.add t) outer (o'.add t) outer' := by
  cases h with
  | note n level above below current h => exact .note n level above below (current ++ [t]) h
  | inside h level above below current outer =>
    exact .inside h level above below (current ++ [t]) outer
  | further o h => exact .further (o.add t) h

/-- To begin the next statement adds the finished one at the end, behind the comment wherever it is. -/
theorem turn (h : StackGrows o outer o' outer') : StackGrows o.turn outer o'.turn outer' := by
  cases h with
  | note n level above below current h =>
    have hnote := StackGrows.note n level above (below ++ [current]) [] h
    simpa only [Open.turn, List.append_assoc, List.cons_append] using hnote
  | inside h level above below current outer =>
    have hinside := StackGrows.inside h level above (below ++ [current]) [] outer
    simpa only [Open.turn, List.append_assoc, List.cons_append] using hinside
  | further o h => exact .further o.turn h

/-- The innermost block has grown, or it is the same and one further out has grown.  When a block is closed
these are the two cases: the difference is in what is handed over, or in what it is handed to. -/
theorem block (h : StackGrows o outer o' outer') :
    outer' = outer ∧ BlockGrows outer o.block o'.block ∨
    o' = o ∧ ∃ p rest p' rest', outer = p :: rest ∧ outer' = p' :: rest' ∧ StackGrows p rest p' rest' := by
  cases h with
  | note n level above below current h =>
    -- something follows the comment, if only the statement that is being read
    obtain ⟨t, ts, hts⟩ : ∃ t ts, below ++ [current] = t :: ts :=
      List.exists_cons_of_ne_nil (by simp)
    refine .inl ⟨rfl, .inl ⟨?_, h⟩⟩
    simp only [Open.block, Open.statements, List.append_assoc, List.cons_append, hts, List.map_append,
      List.map_cons]
    exact Stage.Notes.intro (g := .laidOut) none ⟨n, rfl⟩ _ _ _
  | inside h level above below current outer =>
    refine .inl ⟨rfl, .inr ?_⟩
    simp only [Open.block, Open.statements, List.append_assoc, List.cons_append, List.map_append,
      List.map_cons]
    exact grows_block h _ _
  | further o h => exact .inr ⟨rfl, _, _, _, _, rfl, rfl, h⟩

end StackGrows

theorem handOver_cons (v : Int) (b : Term) (p : Open) (outer : List Open) :
    handOver v b (p :: outer) =
      if v = p.level then .reading (p.add b).turn outer
      else if v < p.level then handOver v (p.add b).block outer
      else .reading (p.add b) outer := rfl

/-- The difference is in the block that is handed over.  The block that takes it has then a statement that has
grown; as a statement of it begins at once (the column is that of an open block), that statement is finished,
as `StackGrows` asks for. -/
theorem handOver_block {v : Int} (outer : List Open) {b b' : Term} (h : BlockGrows outer b b')
    (hat : (handOver v b outer).isAt v = true) :
    StateGrows (handOver v b outer) (handOver v b' outer) := by
  induction outer generalizing b b' with
  | nil => cases hat
  | cons p outer ih =>
    rw [handOver_cons v b] at hat ⊢
    rw [handOver_cons v b']
    by_cases hlevel : v = p.level
    · rw [if_pos hlevel, if_pos hlevel]
      exact .reading (.inside h.statement p.level p.finished [] [] outer)
    rw [if_neg hlevel] at hat ⊢
    rw [if_neg hlevel]
    by_cases hlt : v < p.level
    · rw [if_pos hlt] at hat ⊢
      rw [if_pos hlt]
      exact ih (.inr h.add) hat
    · rw [if_neg hlt] at hat
      exact absurd (of_decide_eq_true hat).symm hlevel

/-- The difference is further out than the block that is handed over.  Each block that is closed on the way is
one use of `block`, until the difference is reached or no more blocks are closed. -/
theorem handOver_stack {v : Int} {p p' : Open} {outer outer' : List Open}
    (h : StackGrows p outer p' outer') {b : Term} (hat : (handOver v b (p :: outer)).isAt v = true) :
    StateGrows (handOver v b (p :: outer)) (handOver v b (p' :: outer')) := by
  rw [handOver_cons v b p] at hat ⊢
  rw [handOver_cons v b p', h.level_eq]
  by_cases hlevel : v = p.level
  · rw [if_pos hlevel, if_pos hlevel]
    exact .reading (h.add b).turn
  rw [if_neg hlevel] at hat ⊢
  rw [if_neg hlevel]
  by_cases hlt : v < p.level
  · rw [if_pos hlt] at hat ⊢
    rw [if_pos hlt]
    rcases (h.add b).block with ⟨rfl, hblock⟩ | ⟨hsame, q, rest, q', rest', rfl, rfl, hrest⟩
    · exact handOver_block _ hblock hat
    · rw [hsame]
      exact handOver_stack hrest hat
  · rw [if_neg hlt] at hat
    exact absurd (of_decide_eq_true hat).symm hlevel
termination_by outer.length

/-- **Every token keeps the comment in its place.**  A token is added to the innermost block on both sides.  A
column begins a statement, opens a block, or closes the innermost one, and the last case is one of the two
above. -/
theorem StackGrows.step {o o' : Open} {outer outer' : List Open} (h : StackGrows o outer o' outer')
    (t : Term) (hat : ∀ v, t = .dent v → (Layout.step (.reading o outer) t).isAt v = true) :
    StateGrows (Layout.step (.reading o outer) t) (Layout.step (.reading o' outer') t) := by
  cases t with
  | dent v =>
    have hat := hat v rfl
    simp only [Layout.step, h.level_eq, h.current_eq] at hat ⊢
    by_cases hlevel : v = o.level
    · rw [if_pos hlevel, if_pos hlevel]
      split
      · exact .reading h
      · exact .reading h.turn
    rw [if_neg hlevel] at hat ⊢
    rw [if_neg hlevel]
    by_cases hlt : o.level < v
    · rw [if_pos hlt, if_pos hlt]
      exact .reading (.further _ h)
    rw [if_neg hlt] at hat ⊢
    rw [if_neg hlt]
    rcases h.block with ⟨rfl, hblock⟩ | ⟨rfl, p, rest, p', rest', rfl, rfl, hrest⟩
    · exact handOver_block _ hblock hat
    · exact handOver_stack hrest hat
  | _ => exact .reading (h.add _)

/-- **The comparison is kept along all tokens.**  One step at a time; that the columns are aligned is asked of
each column at the moment it is read. -/
theorem StateGrows.foldl {s s' : State} (h : StateGrows s s') {ts : List Term}
    (hts : alignedFrom s ts = true) : StateGrows (ts.foldl step s) (ts.foldl step s') := by
  induction ts generalizing s s' with
  | nil => exact h
  | cons t ts ih =>
    obtain ⟨h⟩ := h
    cases t with
    | dent v =>
      rw [alignedFrom, Bool.and_eq_true] at hts
      refine ih (h.step (.dent v) fun w hw => ?_) hts.2
      cases hw
      exact hts.1
    | _ => exact ih (h.step _ fun w hw => by cases hw) hts

/-! ## 4. The tree

At the end of a text all blocks are closed from the inside out, as if a column left of all of them had come.
What has grown is handed on in the same way. -/

/-- The tree when a block is handed to the blocks around it at the end of the text. -/
def closeAround : Term → List Open → Term
  | b, [] => b
  | b, p :: outer => closeAround (p.add b).block outer

theorem close_eq_closeAround (o : Open) (outer : List Open) :
    (close o outer).1 = closeAround o.block outer := by
  induction outer generalizing o with
  | nil => rfl
  | cons p outer ih => exact ih (p.add o.block)

theorem closeAround_block (outer : List Open) {b b' : Term} (h : BlockGrows outer b b') :
    BlockGrows [] (closeAround b outer) (closeAround b' outer) := by
  induction outer generalizing b b' with
  | nil => exact h
  | cons p outer ih => exact ih (.inr h.add)

theorem closeAround_stack {p p' : Open} {outer outer' : List Open} (h : StackGrows p outer p' outer') :
    BlockGrows [] (closeAround p.block outer) (closeAround p'.block outer') := by
  rcases h.block with ⟨rfl, hblock⟩ | ⟨rfl, q, rest, q', rest', rfl, rfl, hrest⟩
  · exact closeAround_block _ hblock
  · rw [closeAround, closeAround]
    exact closeAround_stack (hrest.add p'.block)
termination_by outer.length

theorem StateGrows.result {s s' : State} (h : StateGrows s s') : BlockGrows [] s.result.1 s'.result.1 := by
  obtain ⟨h⟩ := h
  simp only [State.result, close_eq_closeAround]
  exact closeAround_stack h

/-! ## 5. The columns around a comment

Columns that follow each other directly are merged, and an arrow looks ahead to the next column.  A comment
between two equal columns does not interfere with either: there is a token between the columns, and the column
that an arrow finds has the same value. -/

/-- The columns above a line and those below it do not meet. -/
theorem collapseDents_append_line (us : List Term) (v : Int) {t : Term} (ht : isPlain t = true)
    (ts : List Term) :
    collapseDents (us ++ .dent v :: t :: ts) =
      collapseDents (us ++ [.dent v]) ++ collapseDents (t :: ts) := by
  induction us with
  | nil => exact collapseDents_dent_plain v ht ts
  | cons u us ih =>
    rcases isPlain_or_exists_dent u with hu | ⟨w, rfl⟩
    · rw [List.cons_append, collapseDents_plain hu, ih, List.cons_append, collapseDents_plain hu,
        List.cons_append]
    · cases us with
      | nil => exact collapseDents_dent_plain v ht ts
      | cons u us =>
        rcases isPlain_or_exists_dent u with hu | ⟨x, rfl⟩
        · simp only [List.cons_append, collapseDents_dent_plain w hu] at ih ⊢
          rw [ih]
        · exact ih

/-- A column at the end stays, since it is the last one of its run. -/
theorem exists_collapseDents_concat (us : List Term) (v : Int) :
    ∃ vs, collapseDents (us ++ [.dent v]) = vs ++ [.dent v] := by
  induction us with
  | nil => exact ⟨[], rfl⟩
  | cons u us ih =>
    obtain ⟨vs, ih⟩ := ih
    rcases isPlain_or_exists_dent u with hu | ⟨w, rfl⟩
    · exact ⟨u :: vs, by rw [List.cons_append, collapseDents_plain hu, ih, List.cons_append]⟩
    · cases us with
      | nil => exact ⟨vs, ih⟩
      | cons u us =>
        rcases isPlain_or_exists_dent u with hu | ⟨x, rfl⟩
        · refine ⟨.dent w :: vs, ?_⟩
          simp only [List.cons_append, collapseDents_dent_plain w hu] at ih ⊢
          rw [ih]
        · exact ⟨vs, ih⟩

/-- A comment that is followed by its own column is one more finished statement. -/
theorem stateGrows_note {s : State} {v : Int} (hat : (step s (.dent v)).isAt v = true)
    (hhosted : ∀ o outer, step s (.dent v) = .reading o outer → hosted outer = true) (n : String) :
    StateGrows (step s (.dent v)) (step (step (step s (.dent v)) (.word .comment n)) (.dent v)) := by
  cases hs : step s (.dent v) with
  | ended => rw [hs] at hat; cases hat
  | reading o outer =>
    rw [hs] at hat
    have hlevel : o.level = v := of_decide_eq_true hat
    have hcurrent := current_eq_nil hs hlevel
    obtain ⟨level, finished, current⟩ := o
    obtain rfl : level = v := hlevel
    obtain rfl : current = [] := hcurrent
    have hnote := StackGrows.note n level finished [] [] (hhosted _ _ hs)
    rw [List.append_nil] at hnote
    have hturn : step (step (.reading ⟨level, finished, []⟩ outer) (.word .comment n)) (.dent level) =
        .reading ⟨level, finished ++ [[.word .comment n]], []⟩ outer := if_pos rfl
    rw [hturn]
    exact .reading hnote

/-- What the tokens above a line and those below it become. -/
theorem exists_collapse_split (above : List Term) (v : Int) :
    ∃ vs, stateAfter (above ++ [.dent v]) = step (vs.foldl step start) (.dent v) ∧
      ∀ (t : Term), isPlain t = true → ∀ below,
        collapseDents (addBodyDents 0 (above ++ .dent v :: t :: below)) =
          vs ++ .dent v :: collapseDents (addBodyDents v (t :: below)) := by
  obtain ⟨us, hus⟩ := exists_addBodyDents_append above 0 v
  obtain ⟨vs, hvs⟩ := exists_collapseDents_concat us v
  refine ⟨vs, ?_, fun t ht below => ?_⟩
  · have hend : collapseDents (addBodyDents 0 (above ++ [.dent v])) = vs ++ [.dent v] := by
      rw [hus, ← hvs]
      rfl
    rw [stateAfter, hend, List.foldl_append]
    rfl
  · obtain ⟨rest, hrest⟩ := exists_addBodyDents_cons v ht below
    rw [hus, hrest, collapseDents_append_line us v ht, hvs, List.append_assoc, List.singleton_append]

/-- **A comment above a line.**  The lines above are read alike.  The column of the comment leads to a block
at that column, the comment and the column again add a finished statement (`stateGrows_note`), and from there
on the two stacks differ in that statement only. -/
theorem tree_note {above below : List Term} {v : Int} {t : Term} (ht : isPlain t = true)
    (haligned : aligned (above ++ .dent v :: t :: below) = true)
    (hhosted : ∀ o outer, stateAfter (above ++ [.dent v]) = .reading o outer → hosted outer = true)
    (n : String) :
    BlockGrows [] (tree (above ++ .dent v :: t :: below))
      (tree (above ++ .dent v :: .word .comment n :: .dent v :: t :: below)) := by
  obtain ⟨vs, hstate, hsplit⟩ := exists_collapse_split above v
  obtain ⟨rest, hrest⟩ := exists_addBodyDents_cons v ht below
  have hnoted : collapseDents (addBodyDents v (.word .comment n :: .dent v :: t :: below)) =
      .word .comment n :: .dent v :: collapseDents (addBodyDents v (t :: below)) := by
    show collapseDents (.word .comment n :: .dent v :: addBodyDents v (t :: below)) = _
    rw [hrest, collapseDents_plain rfl, collapseDents_dent_plain v ht]
  rw [hstate] at hhosted
  rw [aligned, hsplit t ht, alignedFrom_append, Bool.and_eq_true, alignedFrom, Bool.and_eq_true] at haligned
  obtain ⟨-, hat, hbelow⟩ := haligned
  have hgrows := ((stateGrows_note hat hhosted n).foldl hbelow).result
  rw [tree, tree, hsplit t ht, hsplit _ rfl, hnoted, blocks, blocks, List.foldl_append, List.foldl_append]
  exact hgrows

/-! ## 6. A comment at the end

A column 0 closes all blocks but the outermost and finishes its last statement, which is what the end of the
text would have done.  So the comment behind it is the only thing that is new. -/

/-- A column that is no further in than any line before it adds nothing to them. -/
theorem addBodyDents_append_zero (rest : List Term) {ts : List Term} (hpos : ∀ v, .dent v ∈ ts → 0 ≤ v)
    {c : Int} (hc : 0 ≤ c) :
    addBodyDents c (ts ++ .dent 0 :: rest) = addBodyDents c ts ++ .dent 0 :: addBodyDents 0 rest := by
  induction ts generalizing c with
  | nil => rfl
  | cons t ts ih =>
    have hpos' : ∀ v, .dent v ∈ ts → 0 ≤ v := fun v hv => hpos v (List.mem_cons_of_mem _ hv)
    cases t with
    | dent w => exact congrArg (List.cons _) (ih hpos' (hpos w List.mem_cons_self))
    | symbol s =>
      rw [List.cons_append, addBodyDents_sign_append]
      cases hw : nextDent? ts with
      | none =>
        have hlt : ¬ c < 0 := Int.not_lt.2 hc
        simp only [addBodyDents, hw, Option.getD_none, hlt, decide_false, Bool.and_false,
          Bool.false_eq_true, if_false, ih hpos' hc, List.cons_append]
      | some w =>
        have hpw := hpos' w (mem_of_nextDent? hw)
        simp only [addBodyDents, hw, Option.getD_some, ih hpos' hc, ih hpos' hpw]
        split
        · rfl
        · rfl
    | _ => exact congrArg (List.cons _) (ih hpos' hc)

theorem getLast?_collapseDents (ts : List Term) : (collapseDents ts).getLast? = ts.getLast? := by
  fun_induction collapseDents ts with
  | case1 => rfl
  | case2 w v ts ih => rw [ih, List.getLast?_cons_cons]
  | case3 t ts _ ih => rw [List.getLast?_cons, List.getLast?_cons, ih]

/-- Runs of columns are not joined across a token, so the two parts can be treated one by one. -/
theorem collapseDents_append_of_plain {ts : List Term} {t : Term} (ht : isPlain t = true)
    (hlast : ts.getLast? = some t) (rest : List Term) :
    collapseDents (ts ++ rest) = collapseDents ts ++ collapseDents rest := by
  induction ts with
  | nil => cases hlast
  | cons u ts ih =>
    cases ts with
    | nil =>
      have hu : isPlain u = true := (show u = t from Option.some.inj hlast) ▸ ht
      rw [List.singleton_append, collapseDents_plain hu, collapseDents_plain hu]
      rfl
    | cons u' ts =>
      rw [List.getLast?_cons_cons] at hlast
      have ih := ih hlast
      rcases isPlain_or_exists_dent u with hu | ⟨w, rfl⟩
      · rw [List.cons_append, collapseDents_plain hu, ih, collapseDents_plain hu, List.cons_append]
      rcases isPlain_or_exists_dent u' with hu' | ⟨x, rfl⟩
      · rw [List.cons_append, List.cons_append, collapseDents_dent_plain w hu',
          collapseDents_dent_plain w hu', ← List.cons_append, ih, List.cons_append]
      · exact ih

theorem Grounded.zero_mem {opens : List Open} (h : Grounded opens) : 0 ∈ opens.map Open.level := by
  induction opens with
  | nil => exact h.elim
  | cons o outer ih =>
    cases outer with
    | nil => exact List.mem_cons.2 (.inl (Eq.symm h))
    | cons p outer => exact List.mem_cons_of_mem _ (ih h)

/-- At column 0 all blocks but the outermost are closed. -/
theorem handOver_zero {outer : List Open} (hg : Grounded outer) (hn : Nested outer) (b : Term) :
    ∃ q : Open, handOver 0 b outer = .reading q.turn [] ∧ closeAround b outer = q.block := by
  induction outer generalizing b with
  | nil => exact hg.elim
  | cons p outer ih =>
    cases outer with
    | nil => exact ⟨p.add b, if_pos (Eq.symm hg), rfl⟩
    | cons p' outer =>
      obtain ⟨hlevels, hn⟩ := List.pairwise_cons.1 hn
      have hpos : 0 < p.level := hlevels 0 (Grounded.zero_mem hg)
      rw [handOver_cons, if_neg (Int.ne_of_lt hpos), if_pos hpos]
      exact ih hg hn _

/-- The column 0 closes all blocks but the outermost, in which it begins a statement.  What the outermost one
holds by then is what the end of the tokens would have made of it. -/
theorem step_zero {o : Open} {outer : List Open} (hg : Grounded (o :: outer)) (hn : Nested (o :: outer))
    (hcurrent : o.current ≠ []) :
    ∃ q : Open, step (.reading o outer) (.dent 0) = .reading q.turn [] ∧ (close o outer).1 = q.block := by
  rw [close_eq_closeAround]
  cases outer with
  | nil =>
    have hlevel : 0 = o.level := Eq.symm hg
    have hempty : o.current.isEmpty = false := List.isEmpty_eq_false_iff.2 hcurrent
    refine ⟨o, ?_, rfl⟩
    rw [step, if_pos hlevel, hempty]
    rfl
  | cons p outer =>
    obtain ⟨hlevels, hn⟩ := List.pairwise_cons.1 hn
    have hpos : 0 < o.level := hlevels 0 (Grounded.zero_mem hg)
    rw [step, if_neg (Int.ne_of_lt hpos), if_neg (Int.lt_asymm hpos)]
    have hground : Grounded (p :: outer) := hg
    exact handOver_zero hground hn o.block

/-- After a token that is no column something of a statement has been read. -/
theorem current_ne_nil {s : State} {t : Term} (ht : isPlain t = true) {o : Open} {outer : List Open}
    (h : step s t = .reading o outer) : o.current ≠ [] := by
  cases s with
  | ended => cases h
  | reading p rest =>
    cases t with
    | dent v => cases ht
    | _ =>
      cases h
      exact current_add_ne_nil p _

/-- **A comment at the end.** -/
theorem tree_note_last {ts : List Term} (hpos : ∀ v, .dent v ∈ ts → 0 ≤ v) {t : Term}
    (hlast : ts.getLast? = some t) (ht : isPlain t = true) (n : String) :
    ∃ kids, tree ts = .phrase .block kids ∧
      tree (ts ++ [.dent 0, .word .comment n]) =
        .phrase .block (kids ++ [.phrase .expr [.word .comment n]]) := by
  have hlast' : (addBodyDents 0 ts).getLast? = some t := (getLast?_addBodyDents 0 ts).trans hlast
  have hnoted : collapseDents (addBodyDents 0 (ts ++ [.dent 0, .word .comment n])) =
      collapseDents (addBodyDents 0 ts) ++ [.dent 0, .word .comment n] := by
    rw [addBodyDents_append_zero _ hpos (Int.le_refl 0), collapseDents_append_of_plain ht hlast']
    rfl
  obtain ⟨vs, hvs⟩ := List.getLast?_eq_some_iff.1 ((getLast?_collapseDents _).trans hlast')
  have hpos' : ∀ v, .dent v ∈ vs ++ [t] → 0 ≤ v := fun v hv => hpos v (mem_of_mem_collapse (hvs ▸ hv))
  obtain ⟨hg, -⟩ := foldl_step_grounded (s := start) rfl hpos'
  have hn := nested_foldl_step (s := start) (List.pairwise_singleton _ _) (vs ++ [t])
  rw [tree, tree, hnoted, hvs, blocks, blocks, List.foldl_append (l := vs ++ [t])]
  show ∃ kids, ((vs ++ [t]).foldl step start).result.1 = _ ∧
    (step (step ((vs ++ [t]).foldl step start) (.dent 0)) (.word .comment n)).result.1 = _
  cases hs : (vs ++ [t]).foldl step start with
  | ended => rw [hs] at hg; exact hg.elim
  | reading o outer =>
    rw [hs] at hg hn
    rw [List.foldl_append] at hs
    obtain ⟨q, hstep, hclose⟩ := step_zero hg hn (current_ne_nil ht hs)
    refine ⟨q.statements.map (.phrase .expr), hclose, ?_⟩
    rw [hstep]
    show Term.phrase .block (List.map _ (q.statements ++ [[.word .comment n]])) = _
    rw [List.map_append]
    rfl

/-! ## 7. The statements of a text -/

theorem exists_tree (ts : List Term) : ∃ kids, tree ts = .phrase .block kids := by
  obtain ⟨sts, -, hsts⟩ := blockOf_tree (P := fun _ => True) (fun _ _ => trivial) fun _ _ _ => trivial
  exact ⟨_, hsts⟩

/-- A block around which there is no other one grows in its statements. -/
theorem BlockGrows.growsAll {kids : List Term} {b' : Term} (h : BlockGrows [] (.phrase .block kids) b') :
    ∃ kids', b' = .phrase .block kids' ∧ GrowsAll .laidOut kids kids' := by
  rcases h with ⟨hnotes, -⟩ | hgrows
  · cases hnotes with
    | intro s hc above t below => exact ⟨_, rfl, .note hc above (t :: below)⟩
  · generalize hb : Term.phrase .block kids = b at hgrows
    cases hgrows with
    | here hk =>
      cases hb
      exact absurd hk.hosts (by decide)
    | inside _ h =>
      cases hb
      exact ⟨_, rfl, .inside h _ _⟩

end Layout

end Offside
