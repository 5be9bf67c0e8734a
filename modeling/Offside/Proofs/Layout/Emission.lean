import Offside.Layout
/-!
# Laying out what was written line by line

A text that is written line by line, with the lines below a line further in than the line itself, is laid
out as it was meant: each line is a statement, and the lines below it are a block at its end
(`tree_emitAll`).  How far in a group of lines is may differ from group to group.

Of the three steps, the first two do nothing to such a text.  An arrow at the end of a line gets the
column of the lines below it, which is there already, and of the two only one is kept.

For the third step the difficulty is that a block is not closed by its last token but by the column of a
later line, which may close several blocks at once.  So the state after a group of lines is compared with
the state in which the whole group has been put away: the two need not be equal, but no column up to that
of the group can tell them apart, and neither can the end of the text (`AgreeUpTo`).
-/

namespace Offside

namespace Layout

/-! ## 1. Lines

A `Line` is a tree of lines as they are written, and `statement` is what the tree of statements should be.
They differ in one thing only: whether lines that are below another one are inside of it. -/

/-- A line, and the lines below it that are further in, with the column at which these begin. -/
inductive Line where
  | mk (tokens : List Term) (level : Int) (below : List Line)

/-- A token that is not a column. -/
def isPlain : Term → Bool
  | .dent _ => false
  | _ => true

/-- A sign after which a body may begin. -/
def isArrowToken : Term → Bool
  | .symbol s => isArrow s
  | _ => false

mutual

/-- The tokens of a line after its column, with those of the lines below it. -/
def Line.body : Line → List Term
  | .mk ts level below => ts ++ emitAll level below

/-- The tokens of lines that begin at a column. -/
def emitAll (column : Int) : List Line → List Term
  | [] => []
  | l :: ls => .dent column :: (l.body ++ emitAll column ls)

end

mutual

/-- The statement that a line is meant to be: the lines below it are a block at its end. -/
def Line.statement : Line → List Term
  | .mk ts _ [] => ts
  | .mk ts _ (l :: ls) =>
    ts ++ [.phrase .block (.phrase .expr l.statement :: statements ls)]

/-- The statements that lines are meant to be. -/
def statements : List Line → List Term
  | [] => []
  | l :: ls => .phrase .expr l.statement :: statements ls

end

/-- The block that lines are meant to be. -/
def blockOf (ls : List Line) : Term := .phrase .block (statements ls)

mutual

/-- A line at a column is written regularly: it is not empty, the lines below it are further in, and if
there are any, an arrow in it stands at its end. -/
def Line.Regular (column : Int) : Line → Prop
  | .mk ts level below =>
    ts ≠ [] ∧ (∀ t ∈ ts, isPlain t = true) ∧
      (below ≠ [] → column < level ∧ ∀ t ∈ ts.dropLast, isArrowToken t = false) ∧
      RegularAll level below

def RegularAll (column : Int) : List Line → Prop
  | [] => True
  | l :: ls => l.Regular column ∧ RegularAll column ls

end

/-! ## 2. The columns after arrows

The first step adds columns, and it looks ahead for them: an arrow gets the column of the next line if this is
further in.  In regular lines that happens only where the arrow is the last token of its line and lines are
below it.  Then the same column stands twice in a row, and the second step drops one of the two.

What comes after the lines matters to the first step as well; all that is needed is that it is not further in
(`Follows`). -/

/-- What may follow lines at a column: nothing, or a line that is not further in. -/
def Follows (column : Int) (rest : List Term) : Prop :=
  rest = [] ∨ ∃ v ts, rest = .dent v :: ts ∧ v ≤ column

theorem Follows.mono {c d : Int} {rest : List Term} (h : Follows c rest) (hcd : c ≤ d) :
    Follows d rest := by
  rcases h with rfl | ⟨v, ts, rfl, hv⟩
  · exact .inl rfl
  · exact .inr ⟨v, ts, rfl, Int.le_trans hv hcd⟩

theorem follows_emitAll {c : Int} (ls : List Line) {rest : List Term} (h : Follows c rest) :
    Follows c (emitAll c ls ++ rest) := by
  cases ls with
  | nil => exact h
  | cons l ls => exact .inr ⟨c, _, by rw [emitAll, List.cons_append], Int.le_refl c⟩

/-- At the start of a line it does not matter which column the line before had. -/
theorem addBodyDents_of_follows {d : Int} {rest : List Term} (h : Follows d rest) (c c' : Int) :
    addBodyDents c rest = addBodyDents c' rest := by
  rcases h with rfl | ⟨v, ts, rfl, -⟩ <;> rfl

/-- Tokens before the next column are passed over. -/
theorem nextDent?_append {ts : List Term} (h : ∀ t ∈ ts, isPlain t = true) (rest : List Term) :
    nextDent? (ts ++ rest) = nextDent? rest := by
  induction ts with
  | nil => rfl
  | cons t ts ih =>
    have ht : isPlain t = true := h t List.mem_cons_self
    have ih := ih fun u hu => h u (List.mem_cons_of_mem _ hu)
    cases t with
    | dent v => cases ht
    | _ => exact ih

/-- A sign gets a column only if it is an arrow and the next line is further in. -/
theorem addBodyDents_symbol {c : Int} {s : String} {ts : List Term}
    (h : isArrow s = false ∨ ∀ v, nextDent? ts = some v → v ≤ c) :
    addBodyDents c (.symbol s :: ts) = .symbol s :: addBodyDents c ts := by
  simp only [addBodyDents]
  cases hv : nextDent? ts with
  | none => rfl
  | some v =>
    refine if_neg ?_
    simp only [Bool.and_eq_true, decide_eq_true_eq, not_and]
    intro hs hlt
    rcases h with h | h
    · rw [hs] at h; cases h
    · exact absurd (h v hv) (Int.not_le.2 hlt)

/-- Tokens that get no column pass unchanged. -/
theorem addBodyDents_append {c : Int} {ts : List Term} (rest : List Term)
    (h : ∀ t ∈ ts, isPlain t = true)
    (ha : (∀ t ∈ ts, isArrowToken t = false) ∨ ∀ v, nextDent? rest = some v → v ≤ c) :
    addBodyDents c (ts ++ rest) = ts ++ addBodyDents c rest := by
  induction ts with
  | nil => rfl
  | cons t ts ih =>
    have ht : isPlain t = true := h t List.mem_cons_self
    have hts : ∀ u ∈ ts, isPlain u = true := fun u hu => h u (List.mem_cons_of_mem _ hu)
    have ih := ih hts (ha.imp_left fun ha u hu => ha u (List.mem_cons_of_mem _ hu))
    cases t with
    | dent v => cases ht
    | symbol s =>
      rw [List.cons_append, addBodyDents_symbol, ih, List.cons_append]
      rw [nextDent?_append hts]
      exact ha.imp_left fun ha => ha (.symbol s) List.mem_cons_self
    | _ => exact congrArg (List.cons _) ih

/-- An arrow at the end of a line gets the column of the next line, which follows anyway. -/
theorem addBodyDents_heading {c v : Int} {ts : List Term} (rest : List Term) (hne : ts ≠ [])
    (h : ∀ t ∈ ts, isPlain t = true) (ha : ∀ t ∈ ts.dropLast, isArrowToken t = false) :
    ∃ extra, (extra = [] ∨ extra = [.dent v]) ∧
      addBodyDents c (ts ++ .dent v :: rest) = ts ++ (extra ++ .dent v :: addBodyDents v rest) := by
  obtain ⟨init, t, rfl⟩ : ∃ init t, ts = init ++ [t] :=
    ⟨_, _, (List.dropLast_concat_getLast hne).symm⟩
  rw [List.dropLast_concat] at ha
  have ht : isPlain t = true := h t (by simp)
  obtain ⟨extra, he, hstep⟩ : ∃ extra, (extra = [] ∨ extra = [.dent v]) ∧
      addBodyDents c (t :: .dent v :: rest) = t :: (extra ++ .dent v :: addBodyDents v rest) := by
    cases t with
    | dent w => cases ht
    | symbol s =>
      by_cases hs : (isArrow s && decide (c < v)) = true
      · exact ⟨[.dent v], .inr rfl, if_pos hs⟩
      · exact ⟨[], .inl rfl, if_neg hs⟩
    | _ => exact ⟨[], .inl rfl, rfl⟩
  refine ⟨extra, he, ?_⟩
  rw [List.append_assoc, List.singleton_append,
    addBodyDents_append _ (fun u hu => h u (List.mem_append_left _ hu)) (.inl ha), hstep,
    List.append_assoc, List.singleton_append]

theorem collapseDents_plain {t : Term} (h : isPlain t = true) (ts : List Term) :
    collapseDents (t :: ts) = t :: collapseDents ts := by
  cases t with
  | dent v => cases h
  | _ => rfl

theorem collapseDents_append {ts : List Term} (h : ∀ t ∈ ts, isPlain t = true) (rest : List Term) :
    collapseDents (ts ++ rest) = ts ++ collapseDents rest := by
  induction ts with
  | nil => rfl
  | cons t ts ih =>
    rw [List.cons_append, collapseDents_plain (h t List.mem_cons_self),
      ih fun u hu => h u (List.mem_cons_of_mem _ hu), List.cons_append]

/-- A column before a token that is not one is kept. -/
theorem collapseDents_line {c : Int} {ts : List Term} (hne : ts ≠ [])
    (h : ∀ t ∈ ts, isPlain t = true) (rest : List Term) :
    collapseDents (.dent c :: (ts ++ rest)) = .dent c :: (ts ++ collapseDents rest) := by
  cases ts with
  | nil => exact absurd rfl hne
  | cons t ts =>
    have ht : isPlain t = true := h t List.mem_cons_self
    have hkeep : collapseDents (.dent c :: t :: (ts ++ rest)) =
        .dent c :: collapseDents (t :: (ts ++ rest)) := by
      cases t with
      | dent v => cases ht
      | _ => rfl
    rw [List.cons_append, hkeep, ← List.cons_append, collapseDents_append h]

/-- A column that is there twice is kept once. -/
theorem collapseDents_extra {v : Int} {extra : List Term} (he : extra = [] ∨ extra = [.dent v])
    (ts : List Term) : collapseDents (extra ++ .dent v :: ts) = collapseDents (.dent v :: ts) := by
  rcases he with rfl | rfl <;> rfl

mutual

/-- The first two steps do nothing to a regular line.  An arrow in the middle of a line gets no column,
because the next line is not further in or because it has no lines below it; one at the end gets the column
that is there anyway, and the two are merged. -/
theorem Line.collapse_body : ∀ (l : Line) {c : Int} {rest : List Term}, l.Regular c → Follows c rest →
    collapseDents (.dent c :: addBodyDents c (l.body ++ rest)) =
      .dent c :: (l.body ++ collapseDents (addBodyDents c rest))
  | .mk ts level [], c, rest, ⟨hne, hplain, _, _⟩, hf => by
    have hnext : ∀ v, nextDent? rest = some v → v ≤ c := by
      intro v hv
      rcases hf with rfl | ⟨w, us, rfl, hw⟩
      · cases hv
      · cases hv
        exact hw
    simp only [Line.body, emitAll, List.append_nil]
    rw [addBodyDents_append rest hplain (.inr hnext), collapseDents_line hne hplain]
  | .mk ts level (l :: ls), c, rest, ⟨hne, hplain, hbelow, hreg⟩, hf => by
    obtain ⟨hlt, harrow⟩ := hbelow (by simp)
    have hf' : Follows level rest := hf.mono (Int.le_of_lt hlt)
    obtain ⟨extra, he, hadd⟩ := addBodyDents_heading (c := c) (v := level)
      (l.body ++ emitAll level ls ++ rest) hne hplain harrow
    -- the lines below begin with their column, so what `c` was is forgotten there
    have hall := collapse_emitAll (l :: ls) hreg hf' c
    simp only [emitAll, List.cons_append] at hall
    simp only [Line.body, emitAll, List.append_assoc, List.cons_append] at hadd ⊢
    rw [hadd, collapseDents_line hne hplain, collapseDents_extra he]
    simp only [addBodyDents, List.append_assoc] at hall
    rw [hall]

/-- The first two steps do nothing to regular lines. -/
theorem collapse_emitAll : ∀ (ls : List Line) {d : Int} {rest : List Term}, RegularAll d ls →
    Follows d rest → ∀ c : Int,
    collapseDents (addBodyDents c (emitAll d ls ++ rest)) =
      emitAll d ls ++ collapseDents (addBodyDents c rest)
  | [], _, _, _, _, _ => rfl
  | l :: ls, d, rest, ⟨hl, hls⟩, hf, c => by
    have hf' : Follows d (emitAll d ls ++ rest) := follows_emitAll ls hf
    have hline := l.collapse_body hl hf'
    have hrest := collapse_emitAll ls hls hf d
    simp only [emitAll, List.cons_append, List.append_assoc, addBodyDents]
    rw [hline, hrest, addBodyDents_of_follows hf d c]

end

/-! ## 3. The blocks

After a line with lines below it, the block of these is still open.  A line that comes next at the column of
the first one would close it.  Instead of carrying the open blocks along, the state is compared with the one
in which they have been closed already: columns up to that of the line treat both alike (`AgreeUpTo`), and
only such columns come next. -/

/-- No column up to `d` can tell the two states apart, and neither can the end of the tokens. -/
structure AgreeUpTo (d : Int) (s s' : State) : Prop where
  result : s.result = s'.result
  step : ∀ v ≤ d, step s (.dent v) = step s' (.dent v)

theorem AgreeUpTo.refl (d : Int) (s : State) : AgreeUpTo d s s := ⟨rfl, fun _ _ => rfl⟩

theorem AgreeUpTo.trans {d d' : Int} {s s' s'' : State} (h : AgreeUpTo d' s s')
    (h' : AgreeUpTo d s' s'') (hd : d ≤ d') : AgreeUpTo d s s'' :=
  ⟨h.result.trans h'.result, fun v hv => (h.step v (Int.le_trans hv hd)).trans (h'.step v hv)⟩

/-- A block that lies deeper is as good as put away, for what comes at the column of the block around it or
further out.  Such a column closes the inner block first, and it closes it into the same place. -/
theorem agreeUpTo_add_block {o inner : Open} (outer : List Open) (h : o.level < inner.level) :
    AgreeUpTo o.level (.reading inner (o :: outer)) (.reading (o.add inner.block) outer) where
  result := rfl
  step v hv := by
    have hne : ¬ v = inner.level := by omega
    have hnlt : ¬ inner.level < v := by omega
    have hcur : (o.add inner.block).current.isEmpty = false := by simp [Open.add]
    have hlev : (o.add inner.block).level = o.level := rfl
    simp only [Layout.step, if_neg hne, if_neg hnlt, handOver, hlev, hcur, Bool.false_eq_true, if_false]
    by_cases hv' : v = o.level
    · rw [if_pos hv', if_pos hv']
    · rw [if_neg hv', if_neg hv', if_pos (by omega : v < o.level), if_neg (by omega : ¬ o.level < v)]

/-- Tokens that are not columns are added to the statement that is being read. -/
theorem foldl_step_plain {ts : List Term} (h : ∀ t ∈ ts, isPlain t = true) (o : Open)
    (outer : List Open) :
    ts.foldl step (.reading o outer) = .reading { o with current := o.current ++ ts } outer := by
  induction ts generalizing o with
  | nil => simp
  | cons t ts ih =>
    have ht : isPlain t = true := h t List.mem_cons_self
    have hstep : step (.reading o outer) t = .reading (o.add t) outer := by
      cases t with
      | dent v => cases ht
      | _ => rfl
    rw [List.foldl_cons, hstep, ih (fun u hu => h u (List.mem_cons_of_mem _ hu))]
    simp [Open.add]

theorem Line.statement_ne_nil {c : Int} : ∀ {l : Line}, l.Regular c → l.statement ≠ []
  | .mk _ _ [], ⟨hne, _⟩ => hne
  | .mk _ _ (_ :: _), _ => by simp [Line.statement]

/-- A block with the same column in which these statements follow the finished ones. -/
structure Gathers (o : Open) (ss : List Term) (o' : Open) : Prop where
  level : o'.level = o.level
  statements : o'.statements.map (.phrase .expr) = o.finished.map (.phrase .expr) ++ ss

theorem Gathers.block {o o' : Open} {ss : List Term} (h : Gathers o ss o') (hf : o.finished = []) :
    o'.block = .phrase .block ss := by
  rw [Open.block, h.statements, hf]
  rfl

mutual

/-- After a line, the state is as good as the one in which the line is the statement being read.  If there are
lines below it, their column opens a block, they are gathered in it (`agree_emitAll`), and the block that is
still open then is as good as put away. -/
theorem Line.agree_body : ∀ (l : Line) {o : Open} (outer : List Open), l.Regular o.level →
    o.current = [] →
    AgreeUpTo o.level (l.body.foldl step (.reading o outer))
      (.reading { o with current := l.statement } outer)
  | .mk ts level [], o, outer, ⟨_, hplain, _, _⟩, hcur => by
    simp only [Line.body, emitAll, List.append_nil, Line.statement]
    rw [foldl_step_plain hplain, hcur]
    exact AgreeUpTo.refl _ _
  | .mk ts level (l :: ls), o, outer, ⟨_, hplain, hbelow, hreg⟩, hcur => by
    obtain ⟨hlt, -⟩ := hbelow (by simp)
    simp only [Line.body, emitAll, Line.statement, List.foldl_append, List.foldl_cons]
    rw [foldl_step_plain hplain, hcur, List.nil_append]
    -- the column of the lines below opens a block for them
    have hopen : step (.reading { o with current := ts } outer) (.dent level) =
        .reading { level := level } ({ o with current := ts } :: outer) := by
      simp only [step, if_neg (by omega : ¬ level = o.level), if_pos hlt]
    rw [hopen]
    obtain ⟨inner, hg, hagree⟩ := agree_emitAll l ls (o := { level := level })
      ({ o with current := ts } :: outer) hreg rfl
    rw [List.foldl_append] at hagree
    have hadd := agreeUpTo_add_block (o := { o with current := ts }) outer
      (show o.level < inner.level from hg.level ▸ hlt)
    have hblock : inner.block = .phrase .block (.phrase .expr l.statement :: Layout.statements ls) :=
      hg.block rfl
    rw [hblock] at hadd
    exact hagree.trans hadd (Int.le_of_lt (show o.level < level from hlt))
termination_by l => sizeOf l

/-- After lines, the state is as good as one in which they are statements of the block.  One line after the
other: the column of the next one cannot tell the state after a line from the state in which the line is put
away, and in that state it begins a statement. -/
theorem agree_emitAll : ∀ (l : Line) (ls : List Line) {o : Open} (outer : List Open),
    RegularAll o.level (l :: ls) → o.current = [] →
    ∃ o', Gathers o (Layout.statements (l :: ls)) o' ∧
      AgreeUpTo o.level ((l.body ++ emitAll o.level ls).foldl step (.reading o outer))
        (.reading o' outer)
  | l, [], o, outer, ⟨hl, _⟩, hcur => by
    simp only [emitAll, List.append_nil]
    refine ⟨{ o with current := l.statement }, ⟨rfl, ?_⟩, l.agree_body outer hl hcur⟩
    simp [Open.statements, Layout.statements]
  | l, l' :: ls, o, outer, ⟨hl, hls⟩, hcur => by
    have hline := l.agree_body outer hl hcur
    have hne : l.statement.isEmpty = false := by
      simpa using Line.statement_ne_nil hl
    -- the column of the next line ends the statement
    have hturn : step (.reading { o with current := l.statement } outer) (.dent o.level) =
        .reading { o with finished := o.finished ++ [l.statement], current := [] } outer := by
      simp only [step, if_true, hne, Bool.false_eq_true, if_false, Open.turn]
    obtain ⟨o', hg, hagree⟩ := agree_emitAll l' ls
      (o := { o with finished := o.finished ++ [l.statement], current := [] }) outer hls rfl
    refine ⟨o', ⟨hg.level, ?_⟩, ?_⟩
    · rw [hg.statements]
      simp [Layout.statements]
    · simp only [emitAll, List.foldl_append, List.foldl_cons]
      rw [hline.step o.level (Int.le_refl _), hturn, ← List.foldl_append]
      exact hagree
termination_by l ls => sizeOf l + sizeOf ls

end

/-- Regular lines from the first column on are read as the block that they are meant to be. -/
theorem blocks_emitAll {ls : List Line} (hne : ls ≠ []) (h : RegularAll 0 ls) :
    blocks 0 (emitAll 0 ls) = (blockOf ls, 0) := by
  cases ls with
  | nil => exact absurd rfl hne
  | cons l ls =>
    obtain ⟨o', hg, hagree⟩ := agree_emitAll l ls (o := { level := 0 }) [] h rfl
    have hfirst : step (.reading { level := 0 } []) (.dent 0) = .reading { level := 0 } [] := rfl
    rw [blocks, emitAll, List.foldl_cons, hfirst, hagree.result]
    show (o'.block, o'.level) = _
    rw [hg.block rfl, hg.level]
    rfl

/-- **Regular lines are laid out as they are meant.** -/
theorem tree_emitAll {ls : List Line} (hne : ls ≠ []) (h : RegularAll 0 ls) :
    tree (emitAll 0 ls) = blockOf ls := by
  have hend : Follows 0 [] := .inl rfl
  have hsame := collapse_emitAll ls h hend 0
  simp only [List.append_nil, addBodyDents, collapseDents] at hsame
  rw [tree, hsame, blocks_emitAll hne h]

end Layout

end Offside
