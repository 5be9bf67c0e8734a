import Offside.Proofs.Layout.Emission
/-!
# Layout trees

A layout tree is what a text looks like when only its lines and their nesting count: lines, of which each
may have a layout tree below it.  It says nothing about columns.  To write a layout tree down, columns
have to be chosen: all lines of a tree begin at the same one, and a tree below a line at any one that is
further in.  Trees that stand side by side need not choose alike.

Whatever is chosen, reading the columns gives back the layout tree (`tree_of_emits`): a line is a
statement, and the tree below it is a block at the end of that statement.  A tree with its columns is a
list of regular lines, and for these the work is done already (`tree_emitAll`).
-/

namespace Offside

namespace Layout

/-! ## 1. Layout trees and what they mean

A line with lines below it may have an arrow at its end only: anywhere else the column that comes after the
arrow would begin the block in the middle of the line. -/

/-- The tokens of a line: at least one, and no column among them. -/
structure Row where
  tokens : List Term
  nonempty : tokens ≠ []
  plain : ∀ t ∈ tokens, isPlain t = true

/-- The tokens of a line that has lines below it.  An arrow may only be the last one. -/
structure Heading extends Row where
  arrowLast : ∀ t ∈ tokens.dropLast, isArrowToken t = false

mutual

/-- A layout tree: one line or more. -/
inductive Sheet where
  | last (e : Entry)
  | more (e : Entry) (rest : Sheet)

/-- A line of a layout tree, and perhaps a layout tree below it. -/
inductive Entry where
  | row (r : Row)
  | heading (h : Heading) (below : Sheet)

end

mutual

/-- The statements of a layout tree, one for each line. -/
def Sheet.exprs : Sheet → List Term
  | .last e => [.phrase .expr e.items]
  | .more e rest => .phrase .expr e.items :: rest.exprs

/-- The elements of a statement: the tokens of the line, and the tree below it as a block. -/
def Entry.items : Entry → List Term
  | .row r => r.tokens
  | .heading h below => h.tokens ++ [.phrase .block below.exprs]

end

/-- The block that a layout tree means. -/
def Sheet.block (s : Sheet) : Term := .phrase .block s.exprs

/-! ## 2. Layout trees with columns

The choice of columns is a relation, since a tree may be written in many ways: the lines below a line may
begin at any column that is further in. -/

mutual

/-- These tokens are the layout tree, written from a column on. -/
inductive Sheet.Emits : Sheet → Int → List Term → Prop where
  | last {e : Entry} {c : Int} {ts : List Term} (h : e.Emits c ts) :
      Sheet.Emits (.last e) c (.dent c :: ts)
  | more {e : Entry} {rest : Sheet} {c : Int} {ts us : List Term} (h : e.Emits c ts)
      (h' : rest.Emits c us) : Sheet.Emits (.more e rest) c (.dent c :: (ts ++ us))

/-- These tokens follow the column of a line.  The tree below it is at any column further in. -/
inductive Entry.Emits : Entry → Int → List Term → Prop where
  | row (r : Row) (c : Int) : Entry.Emits (.row r) c r.tokens
  | heading (h : Heading) {below : Sheet} {c d : Int} {ts : List Term} (hcd : c < d)
      (hb : below.Emits d ts) : Entry.Emits (.heading h below) c (h.tokens ++ ts)

end

mutual

/-- A layout tree can be written from every column on. -/
theorem Sheet.exists_emits : ∀ (s : Sheet) (c : Int), ∃ ts, s.Emits c ts
  | .last e, c => by
    obtain ⟨ts, h⟩ := e.exists_emits c
    exact ⟨_, .last h⟩
  | .more e rest, c => by
    obtain ⟨ts, h⟩ := e.exists_emits c
    obtain ⟨us, h'⟩ := rest.exists_emits c
    exact ⟨_, .more h h'⟩

theorem Entry.exists_emits : ∀ (e : Entry) (c : Int), ∃ ts, e.Emits c ts
  | .row r, c => ⟨_, .row r c⟩
  | .heading h below, c => by
    obtain ⟨ts, hb⟩ := below.exists_emits (c + 1)
    exact ⟨_, .heading h (Int.lt_succ c) hb⟩

end

/-! ## 3. Reading the columns

The columns that were chosen are the levels of the lines.  Sheets and entries nest in each other, so this is
shown for both at once, along the derivation that says how the tokens were emitted. -/

mutual

/-- A layout tree with its columns is a list of regular lines. -/
theorem Sheet.exists_lines : ∀ (s : Sheet) {c : Int} {ts : List Term}, s.Emits c ts →
    ∃ ls : List Line, ls ≠ [] ∧ emitAll c ls = ts ∧ RegularAll c ls ∧ statements ls = s.exprs
  | .last e, c, _, .last h => by
    obtain ⟨l, hbody, hreg, hitems⟩ := e.exists_line h
    refine ⟨[l], by simp, ?_, ⟨hreg, trivial⟩, ?_⟩
    · simp only [emitAll, hbody, List.append_nil]
    · simp only [statements, hitems, Sheet.exprs]
  | .more e rest, c, _, .more h h' => by
    obtain ⟨l, hbody, hreg, hitems⟩ := e.exists_line h
    obtain ⟨ls, -, hemit, hregs, hexprs⟩ := rest.exists_lines h'
    refine ⟨l :: ls, by simp, ?_, ⟨hreg, hregs⟩, ?_⟩
    · simp only [emitAll, hbody, hemit]
    · simp only [statements, hitems, hexprs, Sheet.exprs]

/-- An entry is a line, with or without lines below.  By recursion on the way in which it was emitted. -/
theorem Entry.exists_line : ∀ (e : Entry) {c : Int} {ts : List Term}, e.Emits c ts →
    ∃ l : Line, l.body = ts ∧ l.Regular c ∧ l.statement = e.items
  | .row r, c, _, .row _ _ => by
    refine ⟨.mk r.tokens c [], ?_, ⟨r.nonempty, r.plain, by simp, trivial⟩, ?_⟩
    · simp only [Line.body, emitAll, List.append_nil]
    · simp only [Line.statement, Entry.items]
  | .heading h below, c, _, .heading (d := d) _ hcd hb => by
    obtain ⟨ls, hne, hemit, hregs, hexprs⟩ := below.exists_lines hb
    refine ⟨.mk h.tokens d ls, ?_, ⟨h.nonempty, h.plain, fun _ => ⟨hcd, h.arrowLast⟩, hregs⟩, ?_⟩
    · simp only [Line.body, hemit]
    · obtain ⟨l, ls, rfl⟩ := List.exists_cons_of_ne_nil hne
      rw [Entry.items, ← hexprs]
      simp only [Line.statement, statements]

end

/-- **Layout trees are read as they were written.**  Every layout tree can be written, and whichever columns
are chosen, the block that is read is the one that the layout tree means. -/
theorem tree_of_emits (s : Sheet) :
    (∃ ts, s.Emits 0 ts) ∧ ∀ ts, s.Emits 0 ts → tree ts = s.block := by
  refine ⟨s.exists_emits 0, fun ts h => ?_⟩
  obtain ⟨ls, hne, rfl, hregs, hexprs⟩ := s.exists_lines h
  rw [tree_emitAll hne hregs, blockOf, hexprs, Sheet.block]

/-- A line of one token. -/
def Row.single (t : Term) (h : isPlain t = true) : Row := ⟨[t], by simp, by simpa using h⟩

/-- Two blocks, one inside of the other, that end at the same line. -/
def stairs : Sheet :=
  .more (.heading ⟨.single (.symbol "->") rfl, by simp [Row.single]⟩
      (.last (.heading ⟨.single (.word .id "f") rfl, by simp [Row.single]⟩
        (.last (.row (.single (.word .int "1") rfl))))))
    (.last (.row (.single (.word .int "2") rfl)))

theorem tree_of_emits_stairs :
    stairs.Emits 0 [.dent 0, .symbol "->", .dent 4, .word .id "f", .dent 5, .word .int "1",
      .dent 0, .word .int "2"] ∧
    tree [.dent 0, .symbol "->", .dent 4, .word .id "f", .dent 5, .word .int "1",
      .dent 0, .word .int "2"] = stairs.block := by
  have h : stairs.Emits 0 [.dent 0, .symbol "->", .dent 4, .word .id "f", .dent 5, .word .int "1",
      .dent 0, .word .int "2"] :=
    .more (.heading _ (by decide : (0 : Int) < 4) (.last (.heading _ (by decide : (4 : Int) < 5)
      (.last (.row _ 5))))) (.last (.row _ 0))
  exact ⟨h, (tree_of_emits stairs).2 _ h⟩

end Layout

end Offside
