import Offside.Proofs.Layout.Building
import Offside.Proofs.Term.Everywhere
/-!
# No token is lost, and no statement is empty

However the columns go up and down, the tokens of the tree are those of the text, in their order
(`contents_tree`).  This is not clear for a column that fits no open block: it closes blocks and goes on in
the middle of a statement.  It is not even true of columns below the first one, since these end the
reading; so the columns are taken to be at least 0, as they are in every text.

What has been read is held by the open blocks, the outermost first (`held`).  A column moves tokens from
one block to another but never past each other, and the outermost block is at column 0, so that no column
can close it (`Grounded`).

A tree could hold all tokens and have empty statements in between.  A statement is begun by a column, and
of several columns in a row only the last one is kept; so if the text does not end with a column, every
statement gets something (`occupied_tree`).
-/

namespace Offside

namespace Layout

open Term (Everywhere)

/-! ## 1. What a tree holds

The tokens of a tree, read off from left to right.  For an open block they are those of its finished
statements and then those of the statement that is being read; beginning a statement adds none. -/

mutual

/-- The elements of a tree from left to right, without the blocks and statements around them. -/
def contents : Term → List Term
  | .node (.phrase .block) _ kids => contentsAll kids
  | .node (.phrase .expr) _ kids => contentsAll kids
  | t => [t]

def contentsAll : List Term → List Term
  | [] => []
  | t :: ts => contents t ++ contentsAll ts

end

theorem contents_token {t : Term} (ht : t.isNode = false) : contents t = [t] := by
  cases t with
  | node => cases ht
  | _ => rfl

theorem contentsAll_append (ts us : List Term) :
    contentsAll (ts ++ us) = contentsAll ts ++ contentsAll us := by
  induction ts with
  | nil => rfl
  | cons t ts ih => rw [List.cons_append, contentsAll, ih, contentsAll, List.append_assoc]

theorem contentsAll_singleton (t : Term) : contentsAll [t] = contents t := List.append_nil _

theorem contents_expr (ts : List Term) : contents (.phrase .expr ts) = contentsAll ts := rfl

namespace Open

theorem contents_block (o : Open) :
    contents o.block = contentsAll (o.finished.map (.phrase .expr)) ++ contentsAll o.current := by
  show contentsAll ((o.finished ++ [o.current]).map (.phrase .expr)) = _
  rw [List.map_append, contentsAll_append, List.map_singleton, contentsAll_singleton, contents_expr]

theorem contents_new (level : Int) : contents ({ level := level } : Open).block = [] := rfl

theorem contents_add (o : Open) (t : Term) :
    contents (o.add t).block = contents o.block ++ contents t := by
  simp only [contents_block, add, contentsAll_append, contentsAll_singleton, List.append_assoc]

/-- A new statement is empty at first. -/
theorem contents_turn (o : Open) : contents o.turn.block = contents o.block := by
  simp only [contents_block, turn, List.map_append, List.map_singleton, contentsAll_append,
    contents_expr, contentsAll, List.append_nil]

end Open

/-! ## 2. What the open blocks hold

The invariant of the third step.  Before a token the open blocks hold what has been read, and after it they
hold this and the token.  The difficulty is a column that closes blocks: each closed block becomes an element
of the statement around it, behind everything that this statement holds.  Its place is right because the block
was opened after all that was read.

The columns of the open blocks are in order (`Nested`).  That is of no use here, but it tells which blocks a
column closes. -/

/-- The open blocks of a state, from the inside out. -/
def State.opens : State → List Open
  | .reading o outer => o :: outer
  | .ended _ _ => []

/-- What the open blocks hold, from the outside in. -/
def held : List Open → List Term
  | [] => []
  | o :: outer => held outer ++ contents o.block

/-- There are open blocks, and the outermost one is at column 0. -/
def Grounded : List Open → Prop
  | [] => False
  | [o] => o.level = 0
  | _ :: p :: outer => Grounded (p :: outer)

/-- Whether the blocks are grounded depends on their columns only. -/
theorem Grounded.replace {o o' : Open} {outer : List Open} (h : Grounded (o :: outer))
    (hlevel : o'.level = o.level) : Grounded (o' :: outer) := by
  cases outer with
  | nil => exact hlevel.trans h
  | cons p outer => exact h

theorem contents_close (o : Open) (outer : List Open) :
    contents (close o outer).1 = held (o :: outer) := by
  induction outer generalizing o with
  | nil => rfl
  | cons p outer ih =>
    rw [close, ih, held, Open.contents_add, ← List.append_assoc]
    rfl

theorem contents_result {s : State} (h : Grounded s.opens) : contents s.result.1 = held s.opens := by
  cases s with
  | ended => exact h.elim
  | reading o outer => exact contents_close o outer

/-- A block that is handed over goes behind everything that the blocks around it hold.  The induction is on
these blocks: the block is the last element of the innermost of them, and if that one is closed too it is
handed over in its turn, with the block in it. -/
theorem handOver_grounded {v : Int} (hv : 0 ≤ v) {block : Term} {outer : List Open}
    (h : Grounded outer) :
    Grounded (handOver v block outer).opens ∧
      held (handOver v block outer).opens = held outer ++ contents block := by
  induction outer generalizing block with
  | nil => exact h.elim
  | cons o outer ih =>
    have hadd : held (o.add block :: outer) = held (o :: outer) ++ contents block := by
      rw [held, Open.contents_add, ← List.append_assoc]
      rfl
    rw [handOver]
    split
    · refine ⟨h.replace rfl, ?_⟩
      rw [← hadd, State.opens, held, Open.contents_turn]
      rfl
    · split
      · rename_i hlt
        cases outer with
        | nil =>
          -- the outermost block is at column 0, so nothing closes it
          have hground : o.level = 0 := h
          omega
        | cons p outer =>
          exact ⟨(ih h).1, (ih h).2.trans hadd⟩
      · exact ⟨h.replace rfl, hadd⟩

/-- What a token adds to what is held: itself, unless it is a column. -/
def added (t : Term) : List Term := if isPlain t then contents t else []

/-- **One token moves nothing.**  The open blocks hold what they held, and then the token.  Only a column
could: it begins a statement, opens a block that holds nothing yet, or hands the innermost one over.  A column
is at least 0, so that one block at least stays open. -/
theorem step_grounded {s : State} {t : Term} (hs : Grounded s.opens) (ht : ∀ v, t = .dent v → 0 ≤ v) :
    Grounded (step s t).opens ∧ held (step s t).opens = held s.opens ++ added t := by
  cases s with
  | ended => exact hs.elim
  | reading o outer =>
    cases t with
    | dent v =>
      have hadded : added (.dent v) = [] := rfl
      have hv : 0 ≤ v := ht v rfl
      rw [hadded, List.append_nil]
      simp only [step]
      split
      · split
        · exact ⟨hs, rfl⟩
        · refine ⟨hs.replace rfl, ?_⟩
          rw [State.opens, held, Open.contents_turn]
          rfl
      · split
        · refine ⟨hs, ?_⟩
          rw [State.opens, held, Open.contents_new, List.append_nil]
          rfl
        · rename_i hne hnlt
          cases outer with
          | nil =>
            have hground : o.level = 0 := hs
            omega
          | cons p outer =>
            have hgrounded : Grounded (p :: outer) := hs
            exact handOver_grounded hv hgrounded
    | _ =>
      refine ⟨hs.replace rfl, ?_⟩
      simp only [step, State.opens, held, Open.contents_add, List.append_assoc]
      rfl

/-- What is held after a whole list of tokens. -/
theorem foldl_step_grounded {s : State} {ts : List Term} (hs : Grounded s.opens)
    (hts : ∀ v, .dent v ∈ ts → 0 ≤ v) :
    Grounded (ts.foldl step s).opens ∧
      held (ts.foldl step s).opens = held s.opens ++ ts.flatMap added := by
  induction ts generalizing s with
  | nil => exact ⟨hs, (List.append_nil _).symm⟩
  | cons t ts ih =>
    obtain ⟨hgrounded, hheld⟩ := step_grounded (t := t) hs fun v hv => hts v (hv ▸ List.mem_cons_self)
    obtain ⟨hgrounded', hheld'⟩ := ih hgrounded fun v hv => hts v (List.mem_cons_of_mem _ hv)
    refine ⟨hgrounded', ?_⟩
    rw [List.foldl_cons, hheld', hheld, List.append_assoc, List.flatMap_cons]

/-- The open blocks are nested: each is further in than those around it. -/
def Nested (opens : List Open) : Prop := (opens.map Open.level).Pairwise (· > ·)

/-- Closing blocks leaves the columns of the other ones as they are. -/
theorem levels_handOver (v : Int) (b : Term) (outer : List Open) :
    (handOver v b outer).opens.map Open.level <:+ outer.map Open.level := by
  induction outer generalizing b with
  | nil => exact List.nil_suffix
  | cons p outer ih =>
    rw [handOver]
    split
    · exact List.suffix_rfl
    · split
      · exact (ih _).trans (List.suffix_cons _ _)
      · exact List.suffix_rfl

/-- A block is opened only by a column that is further in than the innermost one, and closing takes blocks
away from the inside, so the columns stay in order. -/
theorem nested_step {s : State} (h : Nested s.opens) (t : Term) : Nested (step s t).opens := by
  cases s with
  | ended => exact h
  | reading o outer =>
    obtain ⟨hlevels, houter⟩ := List.pairwise_cons.1 h
    cases t with
    | dent v =>
      rw [step]
      split
      · split
        · exact h
        · exact h
      · split
        · rename_i hlt
          refine List.pairwise_cons.2 ⟨List.forall_mem_cons.2 ⟨hlt, fun l hl => ?_⟩, h⟩
          exact Int.lt_trans (hlevels l hl) hlt
        · exact houter.sublist (levels_handOver v o.block outer).sublist
    | _ => exact h

theorem nested_foldl_step {s : State} (h : Nested s.opens) (ts : List Term) :
    Nested (ts.foldl step s).opens := by
  induction ts generalizing s with
  | nil => exact h
  | cons t ts ih => exact ih (nested_step h t)

/-! ## 3. Nothing is lost

The first two steps do not touch tokens that are no columns, and the third one keeps them in their order. -/

/-- Only columns are put in. -/
theorem filter_addBodyDents (c : Int) (ts : List Term) :
    (addBodyDents c ts).filter isPlain = ts.filter isPlain := by
  fun_induction addBodyDents c ts with
  | case1 => rfl
  | case2 c v ts ih => exact ih
  | case3 c s ts v hv _ ih => exact congrArg (List.cons (.symbol s)) ih
  | case4 c s ts v hv _ ih => exact congrArg (List.cons (.symbol s)) ih
  | case5 c s ts hv ih => exact congrArg (List.cons (.symbol s)) ih
  | case6 c t ts _ _ ih => rw [List.filter_cons, List.filter_cons, ih]

theorem filter_collapseDents (ts : List Term) :
    (collapseDents ts).filter isPlain = ts.filter isPlain := by
  fun_induction collapseDents ts with
  | case1 => rfl
  | case2 w v ts ih => exact ih
  | case3 t ts _ ih => rw [List.filter_cons, List.filter_cons, ih]

/-- What each token adds to the contents is the token itself, and a column adds nothing. -/
theorem flatMap_added {ts : List Term} (h : ∀ t ∈ ts, t.isNode = false) :
    ts.flatMap added = ts.filter isPlain := by
  induction ts with
  | nil => rfl
  | cons t ts ih =>
    obtain ⟨ht, hts⟩ := List.forall_mem_cons.1 h
    rw [List.flatMap_cons, ih hts, List.filter_cons, added]
    split
    · rw [contents_token ht, List.singleton_append]
    · rw [List.nil_append]

/-- The tokens of the tree are those of the text, in their order. -/
theorem contents_tree {ts : List Term} (htok : ∀ t ∈ ts, t.isNode = false)
    (hpos : ∀ v, .dent v ∈ ts → 0 ≤ v) : contents (tree ts) = ts.filter isPlain := by
  have hkept : ∀ v, .dent v ∈ collapseDents (addBodyDents 0 ts) → 0 ≤ v :=
    fun v hv => hpos v (mem_of_mem_collapse hv)
  obtain ⟨hgrounded, hheld⟩ := foldl_step_grounded (s := .reading { level := 0 } []) rfl hkept
  rw [tree, blocks, contents_result hgrounded, hheld,
    flatMap_added fun t ht => htok t (mem_of_mem_collapse ht), filter_collapseDents, filter_addBodyDents]
  rfl

/-! ## 4. No statement is empty

A statement is finished when a column begins the next one or when its block is closed.  So it has to be shown
that by then something has been read into it.  After the first two steps a column is never followed by another
column, and so the statement that a column begins gets the token after it.  `Awaits` says this about the
tokens that are still to come. -/

/-- A block or a statement without elements. -/
def isHollow : Term → Bool
  | .node (.phrase .block) _ kids => kids.isEmpty
  | .node (.phrase .expr) _ kids => kids.isEmpty
  | _ => false

/-- The tree is not an empty block or statement, and nothing below it is one. -/
def Occupied (t : Term) : Prop := t.Everywhere fun u => isHollow u = false

theorem occupied_expr {ts : List Term} (hne : ts ≠ []) (h : ∀ t ∈ ts, Occupied t) :
    Occupied (.phrase .expr ts) :=
  Term.everywhere_node_iff.2 ⟨List.isEmpty_eq_false_iff.2 hne, h⟩

/-- The finished statements of an open block are not empty.  The one that is being read may be. -/
structure Open.Tidy (o : Open) : Prop where
  finished : ∀ ts ∈ o.finished, Occupied (.phrase .expr ts)
  current : ∀ t ∈ o.current, Occupied t

namespace Open.Tidy

variable {o : Open}

theorem new (level : Int) : Open.Tidy { level := level } :=
  ⟨List.forall_mem_nil _, List.forall_mem_nil _⟩

theorem add (h : o.Tidy) {t : Term} (ht : Occupied t) : (o.add t).Tidy :=
  ⟨h.finished, List.forall_mem_append.2 ⟨h.current, List.forall_mem_singleton.2 ht⟩⟩

theorem turn (h : o.Tidy) (hne : o.current ≠ []) : o.turn.Tidy :=
  ⟨List.forall_mem_append.2 ⟨h.finished, List.forall_mem_singleton.2 (occupied_expr hne h.current)⟩,
    List.forall_mem_nil _⟩

/-- A block is occupied if its statements are: those that are finished, and the one that is being read. -/
theorem block (h : o.Tidy) (hne : o.current ≠ []) : Occupied o.block := by
  refine Term.everywhere_node_iff.2 ⟨?_, ?_⟩
  · simp [isHollow, Open.statements]
  · intro t ht
    obtain ⟨ts, hts, rfl⟩ := List.mem_map.1 ht
    rcases List.mem_append.1 hts with hts | hts
    · exact h.finished ts hts
    · obtain rfl := List.mem_singleton.1 hts
      exact occupied_expr hne h.current

end Open.Tidy

theorem current_add_ne_nil (o : Open) (t : Term) : (o.add t).current ≠ [] := by
  simp [Open.add]

/-- Open blocks stay tidy while others are closed.  The statement that a closed block is handed over to is not
empty afterwards, so it may be finished. -/
theorem handOver_tidy {v : Int} {block : Term} {outer : List Open} (hb : Occupied block)
    (h : ∀ p ∈ outer, p.Tidy) : ∀ p ∈ (handOver v block outer).opens, p.Tidy := by
  induction outer generalizing block with
  | nil => exact List.forall_mem_nil _
  | cons o outer ih =>
    obtain ⟨ho, houter⟩ := List.forall_mem_cons.1 h
    have hne := current_add_ne_nil o block
    rw [handOver]
    split
    · exact List.forall_mem_cons.2 ⟨(ho.add hb).turn hne, houter⟩
    · split
      · exact ih ((ho.add hb).block hne) houter
      · exact List.forall_mem_cons.2 ⟨ho.add hb, houter⟩

/-- A column keeps the blocks tidy, unless it closes one in which nothing has been read yet. -/
theorem step_dent_tidy {o : Open} {outer : List Open} {v : Int} (h : ∀ p ∈ o :: outer, p.Tidy)
    (hne : o.current ≠ [] ∨ o.level ≤ v) :
    ∀ p ∈ (step (.reading o outer) (.dent v)).opens, p.Tidy := by
  obtain ⟨ho, houter⟩ := List.forall_mem_cons.1 h
  simp only [step]
  split
  · split
    · exact h
    · rename_i hempty
      exact List.forall_mem_cons.2 ⟨ho.turn (by simpa using hempty), houter⟩
  · split
    · exact List.forall_mem_cons.2 ⟨.new v, h⟩
    · rename_i hlevel hlt
      rcases hne with hne | hle
      · exact handOver_tidy (ho.block hne) houter
      · omega

theorem occupied_close {o : Open} {outer : List Open} (h : ∀ p ∈ o :: outer, p.Tidy)
    (hne : o.current ≠ []) : Occupied (close o outer).1 := by
  induction outer generalizing o with
  | nil => exact (h o List.mem_cons_self).block hne
  | cons p outer ih =>
    obtain ⟨ho, houter⟩ := List.forall_mem_cons.1 h
    obtain ⟨hp, houter⟩ := List.forall_mem_cons.1 houter
    exact ih (List.forall_mem_cons.2 ⟨hp.add (ho.block hne), houter⟩) (current_add_ne_nil p o.block)

/-- Every column is followed by a token that is none. -/
def Ruled : List Term → Prop
  | [] => True
  | .dent _ :: ts => (∃ t us, ts = t :: us ∧ isPlain t = true) ∧ Ruled ts
  | _ :: ts => Ruled ts

/-- Something will be read into the innermost block before it is closed: it has been read already, or it is
the next token, or this is the outermost block and there are tokens ahead. -/
def Awaits (o : Open) (ts : List Term) : Prop :=
  o.current ≠ [] ∨ (∃ t us, ts = t :: us ∧ isPlain t = true) ∨ (ts ≠ [] ∧ o.level = 0)

/-- **No statement stays empty.**  The blocks are tidy as long as tokens are read, and at the end there is
something in the innermost one.  The induction is on the tokens.  A column is reached only with something in
the innermost block, or at the very start, where the outermost block is not closed; and a column is followed
by a token that is none, which fills the statement that the column began. -/
theorem occupied_foldl_step {o : Open} {outer : List Open} {ts : List Term}
    (hg : Grounded (o :: outer)) (ht : ∀ p ∈ o :: outer, p.Tidy)
    (htok : ∀ t ∈ ts, t.isNode = false) (hpos : ∀ v, .dent v ∈ ts → 0 ≤ v) (hruled : Ruled ts)
    (hawait : Awaits o ts) : Occupied (ts.foldl step (.reading o outer)).result.1 := by
  induction ts generalizing o outer with
  | nil =>
    rcases hawait with hne | ⟨t, us, h, -⟩ | ⟨h, -⟩
    · exact occupied_close ht hne
    · cases h
    · exact absurd rfl h
  | cons t ts ih =>
    obtain ⟨htoken, htoks⟩ := List.forall_mem_cons.1 htok
    have hpos' : ∀ v, .dent v ∈ ts → 0 ≤ v := fun v hv => hpos v (List.mem_cons_of_mem _ hv)
    cases t with
    | dent v =>
      have hv : 0 ≤ v := hpos v List.mem_cons_self
      have hroom : o.current ≠ [] ∨ o.level ≤ v := by
        rcases hawait with hne | ⟨t, us, h, hplain⟩ | ⟨-, hlevel⟩
        · exact .inl hne
        · cases h
          cases hplain
        · exact .inr (hlevel ▸ hv)
      obtain ⟨hgrounded, -⟩ := step_grounded (s := .reading o outer) (t := .dent v) hg
        fun w hw => by cases hw; exact hv
      have htidy := step_dent_tidy ht hroom
      rw [List.foldl_cons]
      cases hs : step (.reading o outer) (.dent v) with
      | ended t l => rw [hs] at hgrounded; exact hgrounded.elim
      | reading o' outer' =>
        rw [hs] at hgrounded htidy
        exact ih hgrounded htidy htoks hpos' hruled.2 (.inr (.inl hruled.1))
    | node => cases htoken
    | _ =>
      refine ih (hg.replace rfl) ?_ htoks hpos' hruled (.inl (current_add_ne_nil o _))
      obtain ⟨ho, houter⟩ := List.forall_mem_cons.1 ht
      exact List.forall_mem_cons.2 ⟨ho.add rfl, houter⟩

/-- A column is added before tokens only, so the last token stays the last one. -/
theorem getLast?_addBodyDents (c : Int) (ts : List Term) :
    (addBodyDents c ts).getLast? = ts.getLast? := by
  have hcons : ∀ {t : Term} {us vs : List Term}, us.getLast? = vs.getLast? →
      (t :: us).getLast? = (t :: vs).getLast? := by
    intro t us vs h
    rw [List.getLast?_cons, List.getLast?_cons, h]
  fun_induction addBodyDents c ts with
  | case1 => rfl
  | case2 c v ts ih => exact hcons ih
  | case3 c s ts v hv _ ih =>
    have hne : ts ≠ [] := List.ne_nil_of_mem (mem_of_nextDent? hv)
    refine hcons ?_
    rw [List.getLast?_cons, ih]
    cases hlast : ts.getLast? with
    | none => exact absurd (List.getLast?_eq_none_iff.1 hlast) hne
    | some t => rfl
  | case4 c s ts v hv _ ih => exact hcons ih
  | case5 c s ts hv ih => exact hcons ih
  | case6 c t ts _ _ ih => exact hcons ih

/-- Of several columns in a row one is left, and a token after it, if the last token is no column. -/
theorem ruled_collapseDents {ts : List Term} (h : ∀ v, ts.getLast? ≠ some (.dent v)) :
    Ruled (collapseDents ts) := by
  fun_induction collapseDents ts with
  | case1 => trivial
  | case2 w v ts ih =>
    refine ih fun u => ?_
    rw [← List.getLast?_cons_cons (a := Term.dent w)]
    exact h u
  | case3 t ts hdents ih =>
    have hrest : ∀ v, ts.getLast? ≠ some (.dent v) := by
      intro v hv
      refine h v ?_
      rw [List.getLast?_cons, hv]
      rfl
    cases t with
    | dent w =>
      refine ⟨?_, ih hrest⟩
      cases ts with
      | nil => exact absurd rfl (h w)
      | cons t us =>
        have ht : isPlain t = true := by
          cases t with
          | dent v => exact absurd rfl (hdents w v us rfl)
          | _ => rfl
        exact ⟨t, collapseDents us, collapseDents_plain ht us, ht⟩
    | _ => exact ih hrest

/-- In a text that does not end with a column, every statement has something in it. -/
theorem occupied_tree {ts : List Term} (htok : ∀ t ∈ ts, t.isNode = false)
    (hpos : ∀ v, .dent v ∈ ts → 0 ≤ v) (hne : ts ≠ []) (hlast : ∀ v, ts.getLast? ≠ some (.dent v)) :
    Occupied (tree ts) := by
  refine occupied_foldl_step (o := { level := 0 }) rfl
    (List.forall_mem_singleton.2 (.new 0)) (fun t ht => htok t (mem_of_mem_collapse ht))
    (fun v hv => hpos v (mem_of_mem_collapse hv)) ?_ (.inr (.inr ⟨?_, rfl⟩))
  · refine ruled_collapseDents fun v => ?_
    rw [getLast?_addBodyDents]
    exact hlast v
  · -- the last token is kept by both steps
    obtain ⟨t, ht⟩ : ∃ t, ts.getLast? = some t := by
      cases h : ts.getLast? with
      | none => exact absurd (List.getLast?_eq_none_iff.1 h) hne
      | some t => exact ⟨t, rfl⟩
    have hplain : isPlain t = true := by
      cases t with
      | dent v => exact absurd ht (hlast v)
      | _ => rfl
    have hmem : t ∈ (collapseDents (addBodyDents 0 ts)).filter isPlain := by
      rw [filter_collapseDents, filter_addBodyDents]
      exact List.mem_filter.2 ⟨List.mem_of_getLast? ht, hplain⟩
    exact List.ne_nil_of_mem (List.mem_filter.1 hmem).1

/-! ## 5. Both together

The statement for the tokens of a text, which begin with a column and have a token behind every column. -/

/-- The shape of the tokens of a text: it begins with a column, and every column is followed by a token
that is none. -/
structure Lined (ts : List Term) : Prop where
  begins : ∃ v rest, ts = .dent v :: rest
  ruled : Ruled ts

/-- Each column has a token after it, so none is the last. -/
theorem Ruled.getLast?_ne {ts : List Term} (h : Ruled ts) (v : Int) :
    ts.getLast? ≠ some (.dent v) := by
  induction ts with
  | nil => exact nofun
  | cons t ts ih =>
    cases t with
    | dent w =>
      obtain ⟨⟨t, us, rfl, -⟩, h⟩ := h
      rw [List.getLast?_cons_cons]
      exact ih h
    | _ =>
      cases ts with
      | nil => exact nofun
      | cons u us =>
        rw [List.getLast?_cons_cons]
        exact ih h

/-- **Laying out keeps the tokens and leaves no hole.**  The elements of the tree are the tokens that are
no columns, in their order; no column is left in the tree.  If the tokens have the shape of a text, then
no block and no statement in the tree is empty, even if columns fit no open block. -/
theorem tree_conserves {ts : List Term} (htok : ∀ t ∈ ts, t.isNode = false)
    (hpos : ∀ v, .dent v ∈ ts → 0 ≤ v) :
    contents (tree ts) = ts.filter isPlain ∧
    (tree ts).Everywhere (fun t => isPlain t = true) ∧
    (Lined ts → (tree ts).Everywhere fun t => isHollow t = false) := by
  refine ⟨contents_tree htok hpos, ?_, fun h => ?_⟩
  · have hplain : Closed (Term.Everywhere fun t => isPlain t = true) :=
      closed_everywhere (fun _ => rfl) (fun _ => rfl)
    exact (blockOf_tree hplain fun t ht h => (Term.everywhere_token_iff (htok t ht)).2 h).holds hplain
  · obtain ⟨v, rest, rfl⟩ := h.begins
    exact occupied_tree htok hpos (List.cons_ne_nil _ _) h.ruled.getLast?_ne

/-- A line whose column lies between those of two open blocks. -/
def crooked : List Term :=
  [.dent 0, .word .id "f", .symbol "->", .word .id "a", .dent 4, .word .id "b", .dent 2, .word .id "c",
    .dent 0, .word .id "d"]

theorem tree_conserves_crooked :
    Lined crooked ∧
    contents (tree crooked) = [.word .id "f", .symbol "->", .word .id "a", .word .id "b",
      .word .id "c", .word .id "d"] ∧
    (tree crooked).Everywhere (fun t => isPlain t = true) ∧
    (tree crooked).Everywhere (fun t => isHollow t = false) := by
  have htok : ∀ t ∈ crooked, t.isNode = false := by simp [crooked, Term.isNode, Term.word]
  have hpos : ∀ v, .dent v ∈ crooked → 0 ≤ v := by
    intro v hv
    simp only [crooked, Term.word, List.mem_cons, Term.dent.injEq, reduceCtorEq, List.not_mem_nil,
      or_false, false_or] at hv
    omega
  have hlined : Lined crooked :=
    ⟨⟨0, _, rfl⟩, by simp [crooked, Ruled, Term.word, isPlain]⟩
  obtain ⟨hcontents, hplain, hhollow⟩ := tree_conserves htok hpos
  exact ⟨hlined, hcontents, hplain, hhollow hlined⟩

end Layout

end Offside
