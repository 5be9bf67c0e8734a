import Offside.Proofs.Layout.Building
/-!
# Where the body of a function may begin

The first statement of a body may stand on a line of its own or on the line of the arrow, if the rest of the
body is further in than that line: the tree is the same (`tree_body_start`).

An arrow takes the next column, wherever that comes from, if it is greater than that of its own line.  So
the column of the body comes right after the arrow either way.  If it was there before, it is there twice
now, and one of two equal columns in a row is dropped (`collapseDents_repeated`).  What stands above the line
of the arrow sees the column of that line only, and what follows the arrow begins at the same column in
both texts; that there may be more arrows in either makes no difference.
-/

namespace Offside

namespace Layout

/-- An arrow takes the next column, if that is greater than the one of its line. -/
theorem addBodyDents_arrow {c d : Int} {s : String} {ts : List Term} (hs : isArrow s = true)
    (hnext : nextDent? ts = some d) (hcd : c < d) :
    addBodyDents c (.symbol s :: ts) = .symbol s :: .dent d :: addBodyDents d ts := by
  simp only [addBodyDents, hnext, hs, hcd, decide_true, Bool.and_self, if_true]

/-- Of two columns in a row only the second one counts, whatever stands before them. -/
theorem collapseDents_repeated (ts : List Term) (w v : Int) (us : List Term) :
    collapseDents (ts ++ .dent w :: .dent v :: us) = collapseDents (ts ++ .dent v :: us) := by
  induction ts with
  | nil => rfl
  | cons t ts ih =>
    rcases isPlain_or_exists_dent t with ht | ⟨x, rfl⟩
    · rw [List.cons_append, List.cons_append, collapseDents_plain ht, collapseDents_plain ht, ih]
    · cases ts with
      | nil => rfl
      | cons u ts =>
        rcases isPlain_or_exists_dent u with hu | ⟨y, rfl⟩
        · simp only [List.cons_append, collapseDents_dent_plain x hu] at ih ⊢
          rw [ih]
        · exact ih

/-- **A body may begin on the line of its arrow.**  A line at column `c` has its first arrow after the
tokens `a`, and the next column `d` is greater.  Then it does not matter whether the tokens `s` between the
arrow and that column begin a line of their own at column `d`. -/
theorem tree_body_start {a s : List Term} {arrow : String} {c d : Int}
    (ha : ∀ t ∈ a, isPlain t = true ∧ isArrowToken t = false) (hs : ∀ t ∈ s, isPlain t = true)
    (harrow : isArrow arrow = true) (hcd : c < d) (pre post : List Term) :
    tree (pre ++ [.dent c] ++ a ++ [.symbol arrow] ++ s ++ [.dent d] ++ post) =
      tree (pre ++ [.dent c] ++ a ++ [.symbol arrow, .dent d] ++ s ++ [.dent d] ++ post) := by
  -- what is done above the line depends on its column only
  obtain ⟨above, habove⟩ := exists_addBodyDents_append pre 0 c
  have hline : ∀ rest, addBodyDents c (a ++ rest) = a ++ addBodyDents c rest := fun rest =>
    addBodyDents_append rest (fun t ht => (ha t ht).1) (.inl fun t ht => (ha t ht).2)
  have hnext : nextDent? (s ++ .dent d :: post) = some d := nextDent?_append hs _
  have hbeside := addBodyDents_arrow harrow hnext hcd
  have hbelow : addBodyDents c (.symbol arrow :: .dent d :: (s ++ .dent d :: post)) =
      .symbol arrow :: .dent d :: .dent d :: addBodyDents d (s ++ .dent d :: post) :=
    addBodyDents_arrow harrow rfl hcd
  simp only [List.append_assoc, List.cons_append, List.nil_append, tree, habove, hline, hbeside, hbelow]
  -- below the arrow the column is there twice
  have hdrop := collapseDents_repeated (above ++ .dent c :: (a ++ [.symbol arrow])) d d
    (addBodyDents d (s ++ .dent d :: post))
  simp only [List.append_assoc, List.cons_append, List.nil_append] at hdrop
  rw [hdrop]

/-- Both texts have more arrows, above, in the statement that moves and below it. -/
theorem tree_body_start_arms :
    let name (x : String) : Term := .word .id x
    let above : List Term := [.dent 0, name "g", .symbol "->", name "u"]
    let below : List Term := [.dent 2, name "z", .symbol "=>", .dent 4, name "w"]
    let body : Term := .phrase .block [.phrase .expr [name "x", .symbol "=>", name "y"],
      .phrase .expr [name "z", .symbol "=>", .phrase .block [.phrase .expr [name "w"]]]]
    let whole : Term := .phrase .block [.phrase .expr [name "g", .symbol "->", name "u"],
      .phrase .expr [name "f", .symbol "->", body]]
    tree (above ++ [.dent 0, name "f", .symbol "->", .dent 2, name "x", .symbol "=>", name "y"] ++ below) =
        whole ∧
      tree (above ++ [.dent 0, name "f", .symbol "->", name "x", .symbol "=>", name "y"] ++ below) =
        whole := by
  intro name above below body whole
  have hline : ∀ t ∈ [name "f"], isPlain t = true ∧ isArrowToken t = false :=
    List.forall_mem_singleton.2 ⟨rfl, rfl⟩
  have hfirst : ∀ t ∈ [name "x", .symbol "=>", name "y"], isPlain t = true := by
    simp [name, isPlain, Term.word]
  have hbelow : tree (above ++ [.dent 0, name "f", .symbol "->", .dent 2, name "x", .symbol "=>", name "y"] ++
      below) = whole := rfl
  have harrow : isArrow "->" = true := rfl
  have hdeeper : (0 : Int) < 2 := by decide
  exact ⟨hbelow, (tree_body_start hline hfirst harrow hdeeper above
    [name "z", .symbol "=>", .dent 4, name "w"]).trans hbelow⟩

end Layout

end Offside
