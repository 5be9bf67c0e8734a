import Offside.Proofs.Layout.Emission
import Offside.Proofs.Term.Everywhere
/-!
# What blocks are built of

Reading blocks only puts tokens together: the columns are used up, and every other token becomes an
element of a statement.  So a property that the tokens have, and that a block has as soon as its elements
have it, is a property of the whole tree (`blockOf_tree`).

The first two steps add and drop columns, but no token comes up that is not in the text
(`mem_of_mem_collapse`).
-/

namespace Offside

namespace Layout

/-! ## 1. The steps that add and drop columns

Both steps work on the list of tokens from left to right.  The first one looks ahead, but only to the next
column, so a text can be cut at a column and each half be treated by itself (`exists_addBodyDents_append`). -/

theorem mem_of_nextDent? {ts : List Term} {v : Int} (h : nextDent? ts = some v) : .dent v ∈ ts := by
  fun_induction nextDent? ts with
  | case1 => cases h
  | case2 w ts =>
    cases h
    exact List.mem_cons_self
  | case3 t ts _ ih => exact List.mem_cons_of_mem _ (ih h)

/-- Nothing is added that is not there already: a column is that of a later line. -/
theorem mem_addBodyDents {c : Int} {ts : List Term} {t : Term} (h : t ∈ addBodyDents c ts) :
    t ∈ ts := by
  fun_induction addBodyDents c ts with
  | case1 => exact h
  | case2 c v ts ih =>
    rcases List.mem_cons.1 h with rfl | h
    · exact List.mem_cons_self
    · exact List.mem_cons_of_mem _ (ih h)
  | case3 c s ts v hv _ ih =>
    rcases List.mem_cons.1 h with rfl | h
    · exact List.mem_cons_self
    · rcases List.mem_cons.1 h with rfl | h
      · exact List.mem_cons_of_mem _ (mem_of_nextDent? hv)
      · exact List.mem_cons_of_mem _ (ih h)
  | case4 c s ts v hv _ ih =>
    rcases List.mem_cons.1 h with rfl | h
    · exact List.mem_cons_self
    · exact List.mem_cons_of_mem _ (ih h)
  | case5 c s ts hv ih =>
    rcases List.mem_cons.1 h with rfl | h
    · exact List.mem_cons_self
    · exact List.mem_cons_of_mem _ (ih h)
  | case6 c u ts _ _ ih =>
    rcases List.mem_cons.1 h with rfl | h
    · exact List.mem_cons_self
    · exact List.mem_cons_of_mem _ (ih h)

theorem nextDent?_append_dent (ts : List Term) (v : Int) (us : List Term) :
    nextDent? (ts ++ .dent v :: us) = some ((nextDent? ts).getD v) := by
  induction ts with
  | nil => rfl
  | cons t ts ih =>
    cases t with
    | dent w => rfl
    | _ => exact ih

/-- What is done to a sign depends on the next column only. -/
theorem addBodyDents_sign_append (c : Int) (s : String) (ts : List Term) (v : Int) (us : List Term) :
    addBodyDents c (.symbol s :: (ts ++ .dent v :: us)) =
      if isArrow s && c < (nextDent? ts).getD v then
        .symbol s :: .dent ((nextDent? ts).getD v) ::
          addBodyDents ((nextDent? ts).getD v) (ts ++ .dent v :: us)
      else .symbol s :: addBodyDents c (ts ++ .dent v :: us) := by
  simp only [addBodyDents, nextDent?_append_dent]

/-- What is done to the tokens above a line depends on the column of the line only. -/
theorem exists_addBodyDents_append (ts : List Term) (c v : Int) :
    ∃ us, ∀ rest, addBodyDents c (ts ++ .dent v :: rest) = us ++ .dent v :: addBodyDents v rest := by
  induction ts generalizing c with
  | nil => exact ⟨[], fun rest => rfl⟩
  | cons t ts ih =>
    cases t with
    | dent w =>
      obtain ⟨us, h⟩ := ih w
      exact ⟨.dent w :: us, fun rest => congrArg (List.cons _) (h rest)⟩
    | symbol s =>
      simp only [List.cons_append, addBodyDents_sign_append]
      split
      · obtain ⟨us, h⟩ := ih ((nextDent? ts).getD v)
        exact ⟨.symbol s :: .dent _ :: us, fun rest => by rw [h, List.cons_append, List.cons_append]⟩
      · obtain ⟨us, h⟩ := ih c
        exact ⟨.symbol s :: us, fun rest => by rw [h, List.cons_append]⟩
    | _ =>
      obtain ⟨us, h⟩ := ih c
      exact ⟨_ :: us, fun rest => congrArg (List.cons _) (h rest)⟩

theorem collapseDents_sublist (ts : List Term) : (collapseDents ts).Sublist ts := by
  fun_induction collapseDents ts with
  | case1 => exact List.Sublist.refl _
  | case2 w v ts ih => exact ih.cons _
  | case3 t ts _ ih => exact ih.cons_cons _

/-- The tokens that blocks are made of are those of the text. -/
theorem mem_of_mem_collapse {c : Int} {ts : List Term} {t : Term}
    (h : t ∈ collapseDents (addBodyDents c ts)) : t ∈ ts :=
  mem_addBodyDents ((collapseDents_sublist _).mem h)

theorem isPlain_or_exists_dent (t : Term) : isPlain t = true ∨ ∃ v, t = .dent v := by
  cases t with
  | dent v => exact .inr ⟨v, rfl⟩
  | _ => exact .inl rfl

/-- A column may be put in after a token, never before. -/
theorem exists_addBodyDents_cons (c : Int) {t : Term} (ht : isPlain t = true) (ts : List Term) :
    ∃ us, addBodyDents c (t :: ts) = t :: us := by
  cases t with
  | dent v => cases ht
  | symbol s =>
    simp only [addBodyDents]
    split
    · split
      · exact ⟨_, rfl⟩
      · exact ⟨_, rfl⟩
    · exact ⟨_, rfl⟩
  | _ => exact ⟨_, rfl⟩

theorem collapseDents_dent_plain (v : Int) {t : Term} (ht : isPlain t = true) (ts : List Term) :
    collapseDents (.dent v :: t :: ts) = .dent v :: collapseDents (t :: ts) := by
  have hline := collapseDents_line (c := v) (List.cons_ne_nil t []) (List.forall_mem_singleton.2 ht) ts
  rw [collapseDents_plain ht]
  exact hline

/-! ## 2. A property of all elements

The induction over the tokens is made once, for any property that passes from elements to blocks (`Closed`).
What is used of it are properties of single nodes, such as that the numbers in them can be written. -/

/-- A block has the property as soon as the elements of its statements have it. -/
def Closed (P : Term → Prop) : Prop :=
  ∀ sts : List (List Term), (∀ ts ∈ sts, ∀ t ∈ ts, P t) →
    P (.phrase .block (sts.map (.phrase .expr)))

variable {P : Term → Prop}

/-- What all statements and blocks of statements have passes from elements to blocks. -/
theorem closed_everywhere (hstatement : ∀ ts, P (.phrase .expr ts))
    (hblock : ∀ sts : List (List Term), P (.phrase .block (sts.map (.phrase .expr)))) :
    Closed (Term.Everywhere P) := by
  intro sts h
  refine Term.everywhere_node_iff.2 ⟨hblock sts, fun e he => ?_⟩
  obtain ⟨ts, hts, rfl⟩ := List.mem_map.1 he
  exact Term.everywhere_node_iff.2 ⟨hstatement ts, h ts hts⟩

/-- All elements of an open block have the property. -/
structure Open.Holds (P : Term → Prop) (o : Open) : Prop where
  finished : ∀ ts ∈ o.finished, ∀ t ∈ ts, P t
  current : ∀ t ∈ o.current, P t

namespace Open.Holds

variable {o : Open}

theorem new (level : Int) : Open.Holds P { level := level } :=
  ⟨List.forall_mem_nil _, List.forall_mem_nil _⟩

theorem add (h : o.Holds P) {t : Term} (ht : P t) : (o.add t).Holds P :=
  ⟨h.finished, List.forall_mem_append.2 ⟨h.current, List.forall_mem_singleton.2 ht⟩⟩

theorem turn (h : o.Holds P) : o.turn.Holds P :=
  ⟨List.forall_mem_append.2 ⟨h.finished, List.forall_mem_singleton.2 h.current⟩,
    List.forall_mem_nil _⟩

end Open.Holds

/-- The term is a block of statements whose elements have the property. -/
def BlockOf (P : Term → Prop) (t : Term) : Prop :=
  ∃ sts : List (List Term), (∀ ts ∈ sts, ∀ t ∈ ts, P t) ∧ t = .phrase .block (sts.map (.phrase .expr))

theorem Open.Holds.blockOf {o : Open} (h : o.Holds P) : BlockOf P o.block :=
  ⟨o.statements, List.forall_mem_append.2 ⟨h.finished, List.forall_mem_singleton.2 h.current⟩, rfl⟩

theorem BlockOf.holds (hP : Closed P) {t : Term} (h : BlockOf P t) : P t := by
  obtain ⟨sts, hsts, rfl⟩ := h
  exact hP sts hsts

theorem Open.Holds.block (hP : Closed P) {o : Open} (h : o.Holds P) : P o.block := h.blockOf.holds hP

/-- Everything that has been read has the property. -/
def State.Holds (P : Term → Prop) : State → Prop
  | .reading o outer => o.Holds P ∧ ∀ p ∈ outer, p.Holds P
  | .ended t _ => BlockOf P t

/-- A block that is closed is handed over to the statement around it, and maybe this block is closed in turn.
By induction on the open blocks. -/
theorem holds_handOver (hP : Closed P) {c : Int} {block : Term} {outer : List Open}
    (hb : BlockOf P block) (ho : ∀ p ∈ outer, p.Holds P) : (handOver c block outer).Holds P := by
  induction outer generalizing block with
  | nil => exact hb
  | cons o outer ih =>
    obtain ⟨ho, houter⟩ := List.forall_mem_cons.1 ho
    have hadd : (o.add block).Holds P := ho.add (hb.holds hP)
    rw [handOver]
    split
    · exact ⟨hadd.turn, houter⟩
    · split
      · exact ih hadd.blockOf houter
      · exact ⟨hadd, houter⟩

/-- One token keeps the property, if it is a column or has the property itself.  A token becomes an element.
A column may finish blocks, and a finished block becomes an element too, which is where `Closed` is needed. -/
theorem holds_step (hP : Closed P) {s : State} {t : Term} (hs : s.Holds P)
    (ht : isPlain t = true → P t) : (step s t).Holds P := by
  cases s with
  | ended => exact hs
  | reading o outer =>
    obtain ⟨ho, houter⟩ := hs
    cases t with
    | dent v =>
      simp only [step]
      split
      · refine ⟨?_, houter⟩
        split
        · exact ho
        · exact ho.turn
      · split
        · exact ⟨.new v, List.forall_mem_cons.2 ⟨ho, houter⟩⟩
        · exact holds_handOver hP ho.blockOf houter
    | _ => exact ⟨ho.add (ht rfl), houter⟩

theorem holds_close (hP : Closed P) {o : Open} {outer : List Open} (ho : o.Holds P)
    (houter : ∀ p ∈ outer, p.Holds P) : BlockOf P (close o outer).1 := by
  induction outer generalizing o with
  | nil => exact ho.blockOf
  | cons p outer ih =>
    obtain ⟨hp, houter⟩ := List.forall_mem_cons.1 houter
    exact ih (hp.add (ho.block hP)) houter

theorem holds_foldl_step (hP : Closed P) {s : State} {ts : List Term} (hs : s.Holds P)
    (hts : ∀ t ∈ ts, isPlain t = true → P t) : (ts.foldl step s).Holds P := by
  induction ts generalizing s with
  | nil => exact hs
  | cons t ts ih =>
    obtain ⟨ht, hts⟩ := List.forall_mem_cons.1 hts
    exact ih (holds_step hP hs ht) hts

theorem blockOf_blocks (hP : Closed P) (level : Int) {ts : List Term}
    (h : ∀ t ∈ ts, isPlain t = true → P t) : BlockOf P (blocks level ts).1 := by
  have hend := holds_foldl_step hP (s := .reading { level := level } [])
    ⟨.new level, List.forall_mem_nil _⟩ h
  rw [blocks]
  cases hs : ts.foldl step (.reading { level := level } []) with
  | ended t l => rw [hs] at hend; exact hend
  | reading o outer => rw [hs] at hend; exact holds_close hP hend.1 hend.2

/-- **A property of the tokens that passes from elements to blocks is one of the whole tree**, which is a
block itself. -/
theorem blockOf_tree (hP : Closed P) {ts : List Term} (h : ∀ t ∈ ts, isPlain t = true → P t) :
    BlockOf P (tree ts) :=
  blockOf_blocks hP 0 fun t ht => h t (mem_of_mem_collapse ht)

end Layout

end Offside
