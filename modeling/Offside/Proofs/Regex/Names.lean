import Offside.Proofs.Regex.Extent
import Offside.Regex.Engine
/-!
# The names of groups

A group is given its name when it is opened.  A name that another group has is refused
(`reads_newName`), and nothing else that is read touches the names, so the names of an expression are
distinct (`names_nodup_of_read?`).

Nothing is known of the order in which an expression is read but this: each reader hands the draft on to
the next one.  So it is enough to say of each of them what it keeps (`Keeps`), in the order in which they are
built up from each other.  Between the name and the opening of its group there is one step in which more
has to be known, that the name is still free (`Draft.Fresh`).

This is the last thing that is expected of an engine; the others are about how far a match extends.  So the
engine that reads expressions with `Pattern.read?` is sound (`Engine.sound_standard`).
-/

namespace Offside

namespace Pattern

variable {α β : Type}

/-! ## 1. Readers and what they keep

`Reads P x Q` is a triple for readers: a malformed text gives nothing, so that nothing has to be shown about
it.  Most readers do not touch the names and keep `Distinct` for that reason alone. -/

/-- No two groups have the same name. -/
def Draft.Distinct (d : Draft) : Prop := (d.names.map (·.1)).Nodup

/-- From a draft with `P` the reader comes to one with `Q`, unless the text is malformed. -/
def Reads (P : Draft → Prop) (x : Reading α) (Q : α → Draft → Prop) : Prop :=
  ∀ (d : Draft) (a : α) (d' : Draft), x d = some (a, d') → P d → Q a d'

/-- The reader gives no name twice. -/
def Keeps (x : Reading α) : Prop := Reads Draft.Distinct x fun _ => Draft.Distinct

variable {P : Draft → Prop}

theorem reads_pure {a : α} {Q : α → Draft → Prop} (h : ∀ d, P d → Q a d) : Reads P (pure a) Q := by
  rintro d _ _ ⟨⟩ hd
  exact h d hd

theorem reads_malformed (Q : α → Draft → Prop) : Reads P malformed Q := by
  rintro d a d' ⟨⟩

theorem Reads.bind {x : Reading α} {f : α → Reading β} {Q : α → Draft → Prop} {R : β → Draft → Prop}
    (hx : Reads P x Q) (hf : ∀ a, Reads (Q a) (f a) R) : Reads P (x >>= f) R := by
  intro d b d'' h hd
  obtain ⟨⟨a, d'⟩, ha, hb⟩ := Option.bind_eq_some_iff.1 h
  exact hf a d' b d'' hb (hx d a d' ha hd)

theorem keeps_pure (a : α) : Keeps (pure a) := reads_pure fun _ hd => hd

theorem keeps_malformed : Keeps (malformed : Reading α) := reads_malformed _

theorem Keeps.bind {x : Reading α} {f : α → Reading β} {R : β → Draft → Prop} (hx : Keeps x)
    (hf : ∀ a, Reads Draft.Distinct (f a) R) : Reads Draft.Distinct (x >>= f) R := Reads.bind hx hf

theorem keeps_peek : Keeps peek := by
  rintro d _ _ ⟨⟩ hd
  exact hd

theorem keeps_next : Keeps next := by
  rintro d _ _ ⟨⟩ hd
  exact hd

theorem keeps_get : Keeps (get : Reading Draft) := by
  rintro d _ _ ⟨⟩ hd
  exact hd

theorem keeps_takeUpTo (most : Nat) (fits : Char → Bool) : Keeps (takeUpTo most fits) := by
  rintro d _ _ ⟨⟩ hd
  exact hd

theorem keeps_takeAll (fits : Char → Bool) : Keeps (takeAll fits) := by
  rintro d _ _ ⟨⟩ hd
  exact hd

theorem keeps_setFold (fold : Bool) :
    Keeps (modify fun d => { d with fold := fold } : Reading PUnit) := by
  rintro d _ _ ⟨⟩ hd
  exact hd

theorem keeps_closeGroup (index : Nat) : Keeps (closeGroup index) := by
  rintro d _ _ ⟨⟩ hd
  exact hd

theorem keeps_accept (c : Char) : Keeps (accept c) := by
  refine keeps_peek.bind fun found => ?_
  split
  · exact keeps_next.bind fun _ => keeps_pure true
  · exact keeps_pure false

theorem keeps_takeUntil (close : Char) : Keeps (takeUntil close) := by
  refine (keeps_takeAll _).bind fun body => (keeps_accept close).bind fun closed => ?_
  split
  · exact keeps_pure body
  · exact keeps_malformed

/-! ## 2. Characters and sets

None of these readers opens a group.  They take characters from the text that is left and may refuse it, and
the draft is otherwise as it was. -/

theorem keeps_charAt (n : Nat) : Keeps (charAt n) := by
  unfold charAt
  split
  · exact keeps_pure _
  · exact keeps_malformed

theorem keeps_hexChar (width : Nat) : Keeps (hexChar width) := by
  refine (keeps_takeUpTo _ _).bind fun ds => ?_
  split
  · exact keeps_charAt _
  · exact keeps_malformed

theorem keeps_octalChar (first : Char) (most : Nat) : Keeps (octalChar first most) := by
  refine (keeps_takeUpTo _ _).bind fun ds => ?_
  dsimp only
  split
  · exact keeps_charAt _
  · exact keeps_malformed

theorem keeps_plainEscape (c : Char) : Keeps (plainEscape c) := by
  unfold plainEscape
  split
  · exact keeps_pure _
  · split
    · exact keeps_hexChar 2
    · exact keeps_hexChar 4
    · exact keeps_hexChar 8
    · split
      · exact keeps_malformed
      · exact keeps_pure c

theorem keeps_setEscape : Keeps setEscape := by
  refine keeps_next.bind fun found => ?_
  split
  · exact keeps_malformed
  · split
    · exact keeps_pure _
    · split
      · exact keeps_pure _
      · split
        · exact (keeps_octalChar _ _).bind fun _ => keeps_pure _
        · exact (keeps_plainEscape _).bind fun _ => keeps_pure _

theorem keeps_setEnd (c : Char) : Keeps (setEnd c) := by
  unfold setEnd
  split
  · exact keeps_setEscape
  · exact keeps_pure _

/-- The items of a set, one after the other.  By induction on the fuel. -/
theorem keeps_readSet (fuel : Nat) (items : List SetItem) : Keeps (readSet fuel items) := by
  induction fuel generalizing items with
  | zero => exact keeps_malformed
  | succ fuel ih =>
    refine keeps_next.bind fun found => ?_
    split
    · exact keeps_malformed
    · split
      · exact keeps_pure _
      · refine (keeps_setEnd _).bind fun low => (keeps_accept '-').bind fun range => ?_
        split
        · refine keeps_next.bind fun found => ?_
          split
          · exact keeps_malformed
          · exact keeps_pure _
          · refine (keeps_setEnd _).bind fun high => ?_
            split
            · split
              · exact keeps_malformed
              · exact ih _
            · exact keeps_malformed
        · exact ih _

/-! ## 3. Repetitions and single characters

Braces are the one place where a reader goes back: if they turn out to be no bounds, the text is as it was
before them, and so is the rest of the draft.  A reference looks at the groups that have been opened, and
opens none. -/

/-- The end of the bounds: a brace, unless they are the wrong way round. -/
theorem keeps_closing (wrong : Bool) (b : Bounds) : Keeps (do
    if ← accept '\x7d' then
      if wrong then malformed
      return some b
    return none) := by
  refine (keeps_accept '\x7d').bind fun closed => ?_
  split
  · dsimp only
    split
    · exact keeps_malformed.bind fun _ => keeps_pure _
    · exact keeps_pure _
  · exact keeps_pure none

/-- Braces that are no bounds are given back, and then the state is that from before. -/
theorem keeps_readBraces : Keeps readBraces := by
  intro d a d' h hd
  unfold readBraces at h
  dsimp only at h
  split at h
  · rename_i b d₁ hbody
    obtain ⟨rfl, rfl⟩ := Prod.mk.inj (Option.some.inj h)
    refine (?_ : Keeps _) d _ _ hbody hd
    refine keeps_peek.bind fun found => ?_
    split
    · exact keeps_pure none
    · refine (keeps_takeAll _).bind fun lo => (keeps_accept ',').bind fun comma => ?_
      split
      · exact (keeps_takeAll _).bind fun hi => keeps_closing _ _
      · exact (keeps_pure lo).bind fun hi => keeps_closing _ _
  · obtain ⟨rfl, rfl⟩ := Prod.mk.inj (Option.some.inj h)
    exact hd
  · cases h

theorem keeps_readBounds (c : Char) : Keeps (readBounds c) := by
  unfold readBounds
  split
  · exact keeps_pure _
  · exact keeps_pure _
  · exact keeps_pure _
  · exact keeps_readBraces
  · exact keeps_pure _

theorem keeps_repeatPiece (p : Piece) (b : Bounds) : Keeps (repeatPiece p b) := by
  unfold repeatPiece
  split
  · exact keeps_malformed
  · refine (keeps_accept '?').bind fun lazy => ?_
    split
    · exact keeps_pure _
    · refine (keeps_accept '+').bind fun settled => ?_
      split
      · exact keeps_pure _
      · exact keeps_pure _

theorem keeps_single (items : List SetItem) (outside : Bool) : Keeps (single items outside) :=
  keeps_get.bind fun _ => keeps_pure _

theorem keeps_reference (index : Nat) : Keeps (reference index) := by
  refine keeps_get.bind fun d => ?_
  split
  · exact keeps_pure _
  · exact keeps_malformed

/-- What follows a backslash.  A number is a reference or an octal number, according to the digits after it.
-/
theorem keeps_readEscape : Keeps readEscape := by
  refine keeps_next.bind fun found => ?_
  split
  · exact keeps_malformed
  · exact keeps_pure _
  · exact keeps_pure _
  · exact keeps_pure _
  · exact keeps_pure _
  · exact (keeps_octalChar _ _).bind fun c => keeps_single _ _
  · split
    · exact keeps_single _ _
    · split
      · refine keeps_get.bind fun d => ?_
        dsimp only
        split
        · split
          · exact (keeps_octalChar _ _).bind fun c => keeps_single _ _
          · exact (keeps_takeUpTo _ _).bind fun ds => keeps_reference _
        · exact (keeps_takeUpTo _ _).bind fun ds => keeps_reference _
      · exact (keeps_plainEscape _).bind fun c => keeps_single _ _

/-! ## 4. Groups

The name of a group is read before the group is opened, and that it is free is known at the one point and
needed at the other.  Nothing is read between the two that could give a name. -/

/-- The name that a group is to get. -/
def Opening.name? : Opening → Option String
  | numbered name => name
  | _ => none

/-- No two groups have the same name, and none has the name that is to be given. -/
structure Draft.Fresh (name : Option String) (d : Draft) : Prop where
  distinct : d.Distinct
  not_mem : ∀ n, name = some n → n ∉ d.names.map (·.1)

/-- A name is taken only if no group has it. -/
theorem reads_newName : Reads Draft.Distinct newName fun name => Draft.Fresh (some name) := by
  refine (keeps_takeUntil '>').bind fun name => ?_
  intro d a d' h hd
  -- the draft that is looked at is the one that is left
  change (if _ then _ else _ : Reading String) d = some (a, d') at h
  split at h
  · rename_i hnew
    obtain ⟨rfl, rfl⟩ := Prod.mk.inj (Option.some.inj h)
    refine ⟨hd, ?_⟩
    rintro _ ⟨⟩ hmem
    obtain ⟨e, he, hname⟩ := List.mem_map.1 hmem
    simp only [Bool.and_eq_true, Bool.not_eq_true', List.any_eq_false, beq_iff_eq] at hnew
    exact hnew.2 e he hname
  · cases h

theorem Reads.fresh {x : Reading α} {R : α → Draft → Prop} (h : Reads Draft.Distinct x R)
    {name : Option String} : Reads (Draft.Fresh name) x R :=
  fun d a d' hx hd => h d a d' hx hd.distinct

/-- What opens no group with a name. -/
theorem reads_unnamed {o : Opening} (h : o.name? = none) :
    Reads Draft.Distinct (pure o) fun o => Draft.Fresh o.name? := by
  refine reads_pure fun d hd => ⟨hd, ?_⟩
  rw [h]
  rintro n ⟨⟩

/-- Marks give no name. -/
theorem reads_readMarks (atStart on : Bool) :
    Reads Draft.Distinct (readMarks atStart on) fun o => Draft.Fresh o.name? := by
  refine (keeps_accept ')').bind fun closed => ?_
  split
  · split
    · exact (keeps_setFold true).bind fun _ => reads_unnamed rfl
    · exact reads_malformed _
  · refine (keeps_accept ':').bind fun colon => ?_
    split
    · exact reads_unnamed rfl
    · exact reads_malformed _

/-- What follows an opening bracket.  It is a name in one case only, and then the name is free. -/
theorem reads_readOpening (atStart : Bool) :
    Reads Draft.Distinct (readOpening atStart) fun o => Draft.Fresh o.name? := by
  refine (keeps_accept '?').bind fun marked => ?_
  split
  · exact reads_unnamed rfl
  · refine keeps_next.bind fun found => ?_
    split
    · exact reads_unnamed rfl
    · exact reads_unnamed rfl
    · exact reads_unnamed rfl
    · exact reads_unnamed rfl
    · exact (keeps_takeUntil ')').bind fun _ => reads_unnamed rfl
    · refine (keeps_accept '<').bind fun opened => ?_
      split
      · exact reads_newName.bind fun name => reads_pure fun _ hd => hd
      · refine (keeps_accept '=').bind fun again => ?_
        split
        · refine (keeps_takeUntil ')').bind fun name => keeps_get.bind fun d => ?_
          split
          · exact (keeps_reference _).bind fun p => reads_unnamed rfl
          · exact reads_malformed _
        · exact reads_malformed _
    · exact reads_readMarks atStart true
    · refine (keeps_accept 'i').bind fun off => ?_
      split
      · exact reads_readMarks false false
      · exact reads_malformed _
    · exact reads_malformed _

/-- A free name is added to the names, and they are still distinct. -/
theorem reads_openGroup (name : Option String) :
    Reads (Draft.Fresh name) (openGroup name) fun _ => Draft.Distinct := by
  intro d index d' h hd
  obtain ⟨-, rfl⟩ := Prod.mk.inj (Option.some.inj h)
  cases name with
  | none =>
    show ((d.names ++ []).map Prod.fst).Nodup
    rw [List.append_nil]
    exact hd.distinct
  | some n =>
    show ((d.names ++ [(n, d.groups + 1)]).map Prod.fst).Nodup
    rw [List.map_append, List.nodup_append]
    refine ⟨hd.distinct, List.pairwise_singleton _ _, ?_⟩
    rintro m hm _ hn rfl
    obtain rfl := List.mem_singleton.1 hn
    exact hd.not_mem _ rfl hm

/-! ## 5. Expressions

Three readers that call each other, with less fuel each time.  A group is opened by the reader of a sequence,
right after its name was found to be free, so the names are distinct again. -/

/-- All three readers of expressions, to one depth. -/
structure KeepsAll (fuel : Nat) : Prop where
  readAlt : ∀ atStart, Keeps (readAlt fuel atStart)
  readSeq : ∀ atStart done, Keeps (readSeq fuel atStart done)
  readBody : Keeps (readBody fuel)

theorem KeepsAll.readAlt_succ {fuel : Nat} (h : KeepsAll fuel) (atStart : Bool) :
    Keeps (Pattern.readAlt (fuel + 1) atStart) := by
  unfold Pattern.readAlt
  refine (h.readSeq atStart []).bind fun first => (keeps_accept '|').bind fun more => ?_
  split
  · exact (h.readAlt false).bind fun _ => keeps_pure _
  · exact keeps_pure first

theorem KeepsAll.readBody_succ {fuel : Nat} (h : KeepsAll fuel) : Keeps (Pattern.readBody (fuel + 1)) := by
  unfold Pattern.readBody
  refine (h.readAlt false).bind fun body => (keeps_accept ')').bind fun closed => ?_
  split
  · exact keeps_pure body
  · exact keeps_malformed

/-- **One piece of a sequence.**  Only a bracket with a name adds one, and it adds the one that has just been
found free. -/
theorem KeepsAll.readSeq_succ {fuel : Nat} (h : KeepsAll fuel) (atStart : Bool) (done : List Piece) :
    Keeps (Pattern.readSeq (fuel + 1) atStart done) := by
  have hgo := fun p => h.readSeq atStart (p :: done)
  unfold Pattern.readSeq
  refine keeps_peek.bind fun found => ?_
  split
  · exact keeps_pure _
  · exact keeps_pure _
  · exact keeps_pure _
  · refine keeps_next.bind fun _ => ?_
    split
    · exact keeps_readEscape.bind hgo
    · exact (keeps_single _ _).bind hgo
    · exact hgo _
    · exact hgo _
    · exact (keeps_accept '^').bind fun outside => keeps_get.bind fun d =>
        (keeps_readSet _ _).bind fun items => (keeps_single _ _).bind hgo
    · refine (reads_readOpening _).bind fun o => ?_
      split
      · exact Reads.fresh (h.readSeq atStart done)
      · exact Reads.fresh (hgo _)
      · exact (reads_openGroup _).bind fun index => h.readBody.bind fun body =>
          (keeps_closeGroup index).bind fun _ => hgo _
      · exact Reads.fresh (h.readBody.bind fun body => hgo _)
      · exact Reads.fresh (h.readBody.bind fun body => hgo _)
      · exact Reads.fresh (h.readBody.bind fun body => hgo _)
      · exact Reads.fresh (keeps_get.bind fun d => (keeps_setFold _).bind fun _ =>
          h.readBody.bind fun body => (keeps_setFold _).bind fun _ => hgo _)
    · refine (keeps_readBounds _).bind fun bounds => ?_
      split
      · exact (keeps_single _ _).bind hgo
      · split
        · exact keeps_malformed
        · exact (keeps_repeatPiece _ _).bind fun p => h.readSeq _ _

/-- The readers of alternatives, of rows and of bodies call each other, with less fuel each time, so all three
are shown at once by induction on it. -/
theorem keepsAll (fuel : Nat) : KeepsAll fuel := by
  induction fuel with
  | zero => exact ⟨fun _ => keeps_malformed, fun _ _ => keeps_malformed, keeps_malformed⟩
  | succ fuel ih => exact ⟨ih.readAlt_succ, ih.readSeq_succ, ih.readBody_succ⟩

/-- **The names of the groups of an expression are distinct.** -/
theorem names_nodup_of_read? {text : List Char} {p : Pattern} (h : read? text = some p) :
    (p.names.map (·.1)).Nodup := by
  unfold read? at h
  split at h
  · rename_i tree d hread
    obtain ⟨-, hp⟩ := Option.ite_none_right_eq_some.1 h
    obtain rfl := Option.some.inj hp
    exact (keepsAll _).readAlt true _ tree d hread List.nodup_nil
  · cases h

end Pattern

/-! ## 6. The standard engine

What is expected of an engine has three parts: a match takes no more than there is, what a group remembers is
part of the text, and the names of the groups are distinct.  The first two are about searching
(`matchStart?_length_le`, `infix_of_lookup`), the third about reading. -/

namespace Engine

open Pattern (Found)

theorem compile_standard {s : String} {p : Pattern} (h : Pattern.read? s.toList = some p) :
    standard.compile s = .ok p.matcher := by
  simp only [standard, h]

/-- What the names of a match are bound to is what the groups of that number remember. -/
theorem isInfix_of_mem_named {p : Pattern} {text : List Char} {found : Found}
    (h : p.matchStart? text = some found) {g : String} {cs : List Char}
    (hg : (g, some cs) ∈ found.named p) : cs <:+: text := by
  obtain ⟨⟨_, i⟩, -, heq⟩ := List.mem_map.1 hg
  obtain ⟨-, hlookup⟩ := Prod.mk.inj heq
  exact Pattern.infix_of_lookup h hlookup

/-- **The standard engine is sound.** -/
theorem sound_standard : standard.Sound := by
  intro s m hm text f hf
  obtain ⟨p, hp, rfl⟩ : ∃ p, Pattern.read? s.toList = some p ∧ m = p.matcher := by
    cases hp : Pattern.read? s.toList with
    | some p => exact ⟨p, rfl, Except.ok.inj (hm.symm.trans (compile_standard hp))⟩
    | none =>
      simp only [standard, hp] at hm
      cases hm
  obtain ⟨found, hfound, rfl⟩ := Option.map_eq_some_iff.1 hf
  refine ⟨Pattern.matchStart?_length_le hfound, ?_, isInfix_of_mem_named hfound⟩
  show ((found.named p).map (·.1)).Nodup
  rw [Found.named, List.map_map]
  exact Pattern.names_nodup_of_read? hp

end Engine

end Offside
