import Offside.Proofs.Layout.Building
import Offside.Proofs.Sequencing
import Offside.Scope
import Offside.Tree.Lowering
/-!
# What can be written to the journal

A line of the journal can be written if no number in it is too long.  So a term is *writable* if all its
numbers are shorter than that, and then it has a text in both ways of writing (`Writable.write?`).

Two stages write many lines, and in both nothing too long comes up by itself.

* Reading blocks only puts tokens together: if the tokens are writable, so is every line about what
  happens to them (`message?_of_mem_events`).
* Lowering makes numbers out of digits, but digits that are too many are not read, so what is made is
  writable again, and so is every line about what is replaced (`writable_of_mem_lowerings`).
-/

namespace Offside

namespace Term

/-! ## 1. Writable terms

A term is written by writing all its parts, and the only parts without a text are numbers of more than
`digitLimit` digits.  So to be writable is said of the numbers in a term, and both directions are shown: what
is writable has a text, and nothing else has. -/

mutual

/-- Every number and every column in the term can be written. -/
def Writable : Term → Prop
  | number n => n.natAbs < Text.writingBound
  | dent n => n.natAbs < Text.writingBound
  | seq items => WritableAll items
  | arm _ r => r.Writable
  | leaf _ _ payload => payload.Writable
  | node _ _ kids => WritableAll kids
  | _ => True

def WritableAll : List Term → Prop
  | [] => True
  | t :: ts => t.Writable ∧ WritableAll ts

end

theorem writableAll_iff {ts : List Term} : WritableAll ts ↔ ∀ t ∈ ts, t.Writable := by
  induction ts with
  | nil => exact ⟨fun _ => List.forall_mem_nil _, fun _ => trivial⟩
  | cons t ts ih => rw [WritableAll, ih, List.forall_mem_cons]

theorem writableAll_append {ts us : List Term} :
    WritableAll (ts ++ us) ↔ WritableAll ts ∧ WritableAll us := by
  simp only [writableAll_iff, List.forall_mem_append]

theorem decimal?_of_lt {n : Int} (h : n.natAbs < Text.writingBound) : ∃ s, Text.decimal? n = some s :=
  ⟨_, if_pos h⟩

mutual

/-- **What is writable can be written**, in both ways.  By recursion on the term: numbers and columns are the
only parts that may fail. -/
theorem Writable.write? : ∀ {t : Term}, t.Writable → ∀ plainly, ∃ s, t.write? plainly = some s
  | nothing, _, _ => ⟨_, rfl⟩
  | flag _, _, _ => ⟨_, rfl⟩
  | number _, h, _ => decimal?_of_lt h
  | text _, _, _ => ⟨_, rfl⟩
  | seq items, h, _ => by
    obtain ⟨ss, hss⟩ := WritableAll.writeAll? (show WritableAll items from h) false
    exact ⟨_, by rw [Term.write?, hss]; rfl⟩
  | arm b r, h, _ => by
    obtain ⟨s, hs⟩ := Writable.write? (show r.Writable from h) false
    exact ⟨_, by rw [Term.write?, hs]; rfl⟩
  | dent _, h, _ => by
    obtain ⟨s, hs⟩ := decimal?_of_lt h
    exact ⟨_, by rw [Term.write?, hs]; rfl⟩
  | symbol _, _, _ => ⟨_, rfl⟩
  | kind _, _, _ => ⟨_, rfl⟩
  | signature _ _ _, _, _ => ⟨_, rfl⟩
  | leaf _ _ payload, h, _ => by
    obtain ⟨s, hs⟩ := Writable.write? (show payload.Writable from h) true
    exact ⟨_, by rw [Term.write?, hs]; rfl⟩
  | node _ _ kids, h, _ => by
    obtain ⟨ss, hss⟩ := WritableAll.writeAll? (show WritableAll kids from h) true
    exact ⟨_, by rw [Term.write?, hss]; rfl⟩

theorem WritableAll.writeAll? : ∀ {ts : List Term}, WritableAll ts → ∀ plainly,
    ∃ ss, writeAll? plainly ts = some ss
  | [], _, _ => ⟨_, rfl⟩
  | t :: ts, ⟨ht, hts⟩, plainly => by
    obtain ⟨s, hs⟩ := Writable.write? ht plainly
    obtain ⟨ss, hss⟩ := WritableAll.writeAll? hts plainly
    exact ⟨_, by rw [Term.writeAll?, hs, hss]⟩

end

theorem Writable.plain? {t : Term} (h : t.Writable) : ∃ s, t.plain? = some s := h.write? true

theorem lt_of_decimal? {n : Int} {s : String} (h : Text.decimal? n = some s) :
    n.natAbs < Text.writingBound := by
  refine Decidable.byContradiction fun hn => ?_
  rw [Text.decimal?, if_neg hn] at h
  cases h

mutual

/-- Nothing else has a text. -/
theorem Writable.of_write? : ∀ (t : Term) {plainly : Bool} {s : String}, t.write? plainly = some s →
    t.Writable
  | nothing | flag _ | text _ | symbol _ | kind _ | signature _ _ _ => fun _ => trivial
  | number _ => lt_of_decimal?
  | seq items => fun h => by
    obtain ⟨ss, hss, -⟩ := Option.map_eq_some_iff.1 h
    exact WritableAll.of_writeAll? items hss
  | arm _ r => fun h => by
    obtain ⟨s, hs, -⟩ := Option.map_eq_some_iff.1 h
    exact Writable.of_write? r hs
  | dent _ => fun h => by
    obtain ⟨s, hs, -⟩ := Option.map_eq_some_iff.1 h
    exact lt_of_decimal? hs
  | leaf _ _ payload => fun h => by
    obtain ⟨s, hs, -⟩ := Option.map_eq_some_iff.1 h
    exact Writable.of_write? payload hs
  | node _ _ kids => fun h => by
    obtain ⟨ss, hss, -⟩ := Option.map_eq_some_iff.1 h
    exact WritableAll.of_writeAll? kids hss

/-- Conversely, what has been written was writable. -/
theorem WritableAll.of_writeAll? : ∀ (ts : List Term) {plainly : Bool} {ss : List String},
    writeAll? plainly ts = some ss → WritableAll ts
  | [], _, _, _ => trivial
  | t :: ts, plainly, ss, h => by
    rw [writeAll?] at h
    split at h
    · rename_i hs hss
      exact ⟨Writable.of_write? t hs, WritableAll.of_writeAll? ts hss⟩
    · cases h

end

end Term

/-! ## 2. Reading blocks

A line about an event shows the token that is read, the statement it is added to, or a block that is finished.
All of these are made of tokens.  That open blocks hold nothing else is an invariant of one step
(`State.Holds`), and the events of a step are looked at under it. -/

namespace Layout

open Term (WritableAll writableAll_iff writableAll_append)

theorem writable_addBodyDents {c : Int} {ts : List Term} (h : WritableAll ts) :
    WritableAll (addBodyDents c ts) :=
  writableAll_iff.2 fun t ht => writableAll_iff.1 h t (mem_addBodyDents ht)

theorem writable_collapseDents {ts : List Term} (h : WritableAll ts) :
    WritableAll (collapseDents ts) :=
  writableAll_iff.2 fun t ht => writableAll_iff.1 h t ((collapseDents_sublist ts).mem ht)

/-- A block of what can be written can be written. -/
theorem closed_writable : Closed Term.Writable := by
  intro sts h
  refine writableAll_iff.2 fun e he => ?_
  obtain ⟨ts, hts, rfl⟩ := List.mem_map.1 he
  exact writableAll_iff.2 (h ts hts)

theorem writable_blocks (level : Int) {ts : List Term} (h : WritableAll ts) :
    (blocks level ts).1.Writable :=
  (blockOf_blocks closed_writable level fun t ht _ => writableAll_iff.1 h t ht).holds closed_writable

/-- The line about the event can be written. -/
def Event.Sayable (e : Event) : Prop := ∃ s, e.message? = some s

namespace Event

theorem sayable_considering (l : Int) {t : Term} (h : t.Writable) : (considering l t).Sayable := by
  obtain ⟨s, hs⟩ := h.plain?
  exact ⟨_, by rw [message?, hs]; rfl⟩

theorem sayable_got (l c : Int) {b : Term} (h : b.Writable) : (got l b c).Sayable := by
  obtain ⟨s, hs⟩ := h.plain?
  exact ⟨_, by rw [message?, hs]; rfl⟩

theorem sayable_adding (l : Int) {t e : Term} (ht : t.Writable) (he : e.Writable) :
    (adding l t e).Sayable := by
  obtain ⟨s, hs⟩ := ht.plain?
  obtain ⟨r, hr⟩ := he.plain?
  exact ⟨_, by rw [message?, hs, hr]⟩

end Event

/-- The events of closing blocks show the blocks that are closed, and these are made of what was read. -/
theorem sayable_handOverEvents {c : Int} {block : Term} {outer : List Open} (hb : block.Writable)
    (ho : ∀ p ∈ outer, p.Holds Term.Writable) : ∀ e ∈ handOverEvents c block outer, e.Sayable := by
  induction outer generalizing block with
  | nil => exact List.forall_mem_nil _
  | cons o outer ih =>
    obtain ⟨ho, houter⟩ := List.forall_mem_cons.1 ho
    rw [handOverEvents]
    refine List.forall_mem_cons.2 ⟨Event.sayable_got _ _ hb, ?_⟩
    split
    · exact List.forall_mem_cons.2 ⟨⟨_, rfl⟩, List.forall_mem_nil _⟩
    · split
      · exact List.forall_mem_cons.2 ⟨⟨_, rfl⟩, ih ((ho.add hb).block closed_writable) houter⟩
      · exact List.forall_mem_nil _

/-- One round: what is shown is the token, or something that an open block holds. -/
theorem sayable_stepEvents {s : State} {t : Term} (hs : s.Holds Term.Writable) (ht : t.Writable) :
    ∀ e ∈ stepEvents s t, e.Sayable := by
  cases s with
  | ended => exact List.forall_mem_nil _
  | reading o outer =>
    obtain ⟨ho, houter⟩ := hs
    cases t with
    | dent v =>
      simp only [stepEvents]
      refine List.forall_mem_cons.2 ⟨Event.sayable_considering _ ht, ?_⟩
      split
      · split
        · exact List.forall_mem_nil _
        · exact List.forall_mem_cons.2 ⟨⟨_, rfl⟩, List.forall_mem_nil _⟩
      · split
        · exact List.forall_mem_cons.2 ⟨⟨_, rfl⟩, List.forall_mem_nil _⟩
        · exact List.forall_mem_cons.2 ⟨⟨_, rfl⟩,
            sayable_handOverEvents (ho.block closed_writable) houter⟩
    | _ =>
      exact List.forall_mem_cons.2 ⟨Event.sayable_considering _ ht,
        List.forall_mem_cons.2
          ⟨Event.sayable_adding _ ht (writableAll_iff.2 ho.current), List.forall_mem_nil _⟩⟩

theorem sayable_closeEvents {o : Open} {outer : List Open} (ho : o.Holds Term.Writable)
    (houter : ∀ p ∈ outer, p.Holds Term.Writable) : ∀ e ∈ closeEvents o outer, e.Sayable := by
  induction outer generalizing o with
  | nil => exact List.forall_mem_nil _
  | cons p outer ih =>
    obtain ⟨hp, houter⟩ := List.forall_mem_cons.1 houter
    have hblock : o.block.Writable := ho.block closed_writable
    exact List.forall_mem_cons.2 ⟨Event.sayable_got _ _ hblock, ih (hp.add hblock) houter⟩

/-- All rounds.  The state after a round holds writable terms again, so the induction on the tokens goes on
with it. -/
theorem sayable_eventsFrom {s : State} {ts : List Term} (hs : s.Holds Term.Writable)
    (hts : WritableAll ts) :
    ∀ e ∈ eventsFrom s ts, e.Sayable := by
  induction ts generalizing s with
  | nil =>
    cases s with
    | ended => exact List.forall_mem_nil _
    | reading o outer => exact sayable_closeEvents hs.1 hs.2
  | cons t ts ih =>
    cases s with
    | ended => exact List.forall_mem_nil _
    | reading o outer =>
      exact List.forall_mem_append.2 ⟨sayable_stepEvents hs hts.1,
        ih (holds_step closed_writable hs fun _ => hts.1) hts.2⟩

/-- **Every line about the reading of writable tokens can be written.** -/
theorem message?_of_mem_events (level : Int) {ts : List Term} (h : WritableAll ts) :
    ∀ e ∈ events level ts, ∃ s, e.message? = some s :=
  sayable_eventsFrom ⟨.new level, List.forall_mem_nil _⟩ h

end Layout

/-! ## 3. Numbers that are read

A numeral of `k` digits is below `10 ^ k`, and the bound on numerals that are read is the bound on those that
are written. -/

namespace Text

theorem pow_le_writingBound {k : Nat} (h : k ≤ digitLimit) : Nat.pow 10 k ≤ writingBound := by
  -- the limit is made a variable, so that the bound is never computed
  unfold writingBound
  generalize digitLimit = limit at h
  exact Nat.pow_le_pow_right (by decide) h

theorem ten_le_writingBound : 10 ≤ writingBound := pow_le_writingBound (k := 1) (by decide)

/-- A digit of any script is less than ten. -/
theorem digitValue?_lt {c : Char} {d : Nat} (h : digitValue? c = some d) : d < 10 := by
  unfold digitValue? at h
  split at h
  · split at h
    · simp only [Bool.and_eq_true, decide_eq_true_eq, Option.some.injEq] at *
      omega
    · cases h
  · obtain ⟨z, hz, rfl⟩ := Option.map_eq_some_iff.1 h
    have hz := List.find?_some hz
    simp only [Bool.and_eq_true, decide_eq_true_eq] at hz
    omega

/-- A number with so many digits is below that power of ten.  By induction on the digits, for any number read
so far. -/
theorem foldl_digits_lt (ds : List Char) {n k : Nat} (h : n < Nat.pow 10 k) :
    ds.foldl (fun n c => 10 * n + (digitValue? c).getD 0) n < Nat.pow 10 (k + ds.length) := by
  induction ds generalizing n k with
  | nil => exact h
  | cons c ds ih =>
    have hd : (digitValue? c).getD 0 < 10 := by
      cases hc : digitValue? c with
      | none => decide
      | some d => exact digitValue?_lt hc
    have hstep : 10 * n + (digitValue? c).getD 0 < Nat.pow 10 k * 10 := by omega
    rw [List.foldl_cons, List.length_cons, Nat.add_comm ds.length, ← Nat.add_assoc]
    exact ih hstep

/-- A numeral that is not too long can be written. -/
theorem numeral_lt {ds : List Char} (h : ds.length ≤ digitLimit) : numeral ds < writingBound :=
  Nat.lt_of_lt_of_le (foldl_digits_lt ds (k := 0) (by decide)) (pow_le_writingBound (by omega))

/-- A number that is read can be written. -/
theorem integer?_lt {s : String} {n : Int} (h : integer? s = some n) : n.natAbs < writingBound := by
  have hnat : ∀ (cs : List Char) (m : Nat), ((digitRun? cs).bind fun ds =>
      if ds.length ≤ digitLimit then some (numeral ds) else none) = some m → m < writingBound := by
    intro cs m hm
    obtain ⟨ds, -, hm⟩ := Option.bind_eq_some_iff.1 hm
    split at hm
    · obtain rfl := Option.some.inj hm
      exact numeral_lt ‹_›
    · cases hm
  simp only [integer?] at h
  split at h
  · obtain ⟨m, hm, rfl⟩ := Option.map_eq_some_iff.1 h
    obtain ⟨k, hk, hm⟩ := Option.bind_eq_some_iff.1 hm
    obtain rfl := Option.some.inj hm
    rw [Int.natAbs_neg]
    exact hnat _ k hk
  · obtain ⟨m, hm, rfl⟩ := Option.map_eq_some_iff.1 h
    exact hnat _ m hm
  · obtain ⟨m, hm, rfl⟩ := Option.map_eq_some_iff.1 h
    exact hnat _ m hm

end Text

/-! ## 4. Lowering

Lowering works from the leaves up and builds nodes anew.  The only number that is made is the one in a leaf of
digits, and that has a text by the section before. -/

namespace Term

/-- A number that is read from a text has no more digits than may be written, because a longer text is not
read. -/
theorem writable_toNumber {t : Term} {n : Int} (ht : t.Writable) (h : t.toNumber = .ok n) :
    n.natAbs < Text.writingBound := by
  have hbound := Text.ten_le_writingBound
  unfold toNumber at h
  split at h
  · cases h
    exact ht
  · cases h
    split <;> simp <;> omega
  · split at h
    · cases h
      exact Text.integer?_lt ‹_›
    · cases h
  · cases h

/-- The members of a term are parts of it, or characters of a text. -/
theorem writable_members {t : Term} {ms : List Term} (ht : t.Writable) (h : t.members = .ok ms) :
    WritableAll ms := by
  unfold members at h
  split at h
  · cases h
    rename_i hm
    unfold members? at hm
    split at hm
    · cases hm
      exact ht
    · cases hm
      exact ht
    · cases hm
      refine writableAll_iff.2 fun t ht => ?_
      obtain ⟨c, -, rfl⟩ := List.mem_map.1 ht
      trivial
    · cases hm
      exact ⟨trivial, ht, trivial⟩
    · cases hm
  · cases h

/-- A leaf keeps what it is given, except for an integer, which holds a number that has been read. -/
theorem writable_leaf_build {k : LeafKind} {v t : Term} (hv : v.Writable) (h : k.build [v] = .ok t) :
    t.Writable := by
  by_cases hk : k = .datum .int
  · subst hk
    cases hn : v.toNumber with
    | error e =>
      simp only [LeafKind.build, hn, bind, Except.bind] at h
      cases h
    | ok n =>
      simp only [LeafKind.build, hn, bind, Except.bind] at h
      cases h
      exact writable_toNumber hv hn
  · have hbuild : k.build [v] = .ok (.leaf k none v) := by
      unfold LeafKind.build
      split <;> simp_all
    rw [hbuild] at h
    cases h
    exact hv

/-- A node keeps the children that it is given. -/
theorem writable_plainBuild {k : NodeKind} {kids : List Term} {t : Term} (hk : WritableAll kids)
    (h : k.plainBuild kids = .ok t) : t.Writable := by
  unfold NodeKind.plainBuild at h
  split at h
  · split at h
    · cases h
      exact hk
    · cases h
  · cases h
    exact hk

theorem writable_commaKids {left right : Term} (hl : left.Writable) (hr : right.Writable) :
    WritableAll (commaKids left right) := by
  unfold commaKids
  split
  · exact writableAll_append.2 ⟨hl, hr, trivial⟩
  · exact writableAll_append.2 ⟨hl, hr, trivial⟩
  · exact ⟨hl, hr, trivial⟩

/-- What a node is built of is what it holds, but for the list of an array, whose elements are members of a
child. -/
theorem writable_node_build {k : NodeKind} {kids : List Term} {t : Term} (hk : WritableAll kids)
    (h : k.build kids = .ok t) : t.Writable := by
  unfold NodeKind.build at h
  split at h
  · split at h
    · exact writable_plainBuild (writable_commaKids hk.1 hk.2.1) h
    · cases h
  · split at h
    · exact writable_plainBuild (writable_commaKids hk.1 hk.2.1) h
    · cases h
  · split at h
    · rename_i u
      cases hm : u.members with
      | error e => rw [hm] at h; cases h
      | ok ms =>
        rw [hm] at h
        cases h
        exact writable_members hk.1 hm
    · cases h
  · split at h
    · cases h
      obtain ⟨h₁, h₂, -⟩ := hk
      show WritableAll (if _ then _ else _)
      split
      · exact ⟨h₂, h₁, trivial⟩
      · exact ⟨h₁, h₂, trivial⟩
    · cases h
  · exact writable_plainBuild hk h

section Transform

variable {f : Term → Except Error Term}

mutual

/-- A function that keeps terms writable does so in a whole tree. -/
theorem writable_transformBelow (hf : ∀ t t', t.Writable → f t = .ok t' → t'.Writable) :
    ∀ (t : Term) {t' : Term}, t.Writable → t.transformBelow f = .ok t' → t'.Writable
  | .node k s kids, t', ht, h => by
    obtain ⟨kids', hkids, h⟩ := ok_of_bind h
    obtain rfl := Except.ok.inj h
    exact writable_transformAll hf kids ht hkids
  | .nothing, _, ht, h | .flag _, _, ht, h | .number _, _, ht, h | .text _, _, ht, h
  | .seq _, _, ht, h | .arm _ _, _, ht, h | .dent _, _, ht, h | .symbol _, _, ht, h
  | .kind _, _, ht, h | .signature _ _ _, _, ht, h | .leaf _ _ _, _, ht, h => by
    obtain rfl := Except.ok.inj h
    exact ht

theorem writable_transformAll (hf : ∀ t t', t.Writable → f t = .ok t' → t'.Writable) :
    ∀ (ts : List Term) {ts' : List Term}, WritableAll ts → transformAll f ts = .ok ts' → WritableAll ts'
  | [], ts', _, h => by
    obtain rfl := Except.ok.inj h
    trivial
  | t :: ts, ts', hts, h => by
    obtain ⟨u, hu, h⟩ := ok_of_bind h
    obtain ⟨v, hv, h⟩ := ok_of_bind h
    obtain ⟨vs, hvs, h⟩ := ok_of_bind h
    obtain rfl := Except.ok.inj h
    exact ⟨hf u v (writable_transformBelow hf t hts.1 hu) hv, writable_transformAll hf ts hts.2 hvs⟩

end

/-- A function that makes writable terms of writable ones does so with whole trees. -/
theorem writable_transform (hf : ∀ t t', t.Writable → f t = .ok t' → t'.Writable) {t t' : Term}
    (ht : t.Writable) (h : t.transform f = .ok t') : t'.Writable := by
  obtain ⟨root, hroot, h⟩ := ok_of_bind h
  have hw := hf t root ht hroot
  split at h
  · obtain ⟨kids, hkids, h⟩ := ok_of_bind h
    obtain rfl := Except.ok.inj h
    exact writable_transformAll hf _ hw hkids
  · obtain ⟨items, hitems, h⟩ := ok_of_bind h
    obtain rfl := Except.ok.inj h
    exact writable_transformAll hf _ hw hitems
  · split at h
    · obtain rfl := Except.ok.inj h
      trivial
    · cases h
  · cases h

end Transform

end Term

namespace Tree

open Term (WritableAll)

/-- Lowering makes leaves and nodes of what was there. -/
theorem writable_lowerNode {t t' : Term} (ht : t.Writable) (h : lowerNode t = .ok t') :
    t'.Writable := by
  unfold lowerNode at h
  split at h
  · split at h
    · rename_i v _ _ _
      exact Term.writable_leaf_build (v := v) ht h
    · cases h
      exact ht
  · split at h
    · exact Term.writable_node_build ht h
    · cases h
      exact ht
  · cases h
    exact ht

/-- What a writable tree is lowered to is writable. -/
theorem writable_lower {t t' : Term} (ht : t.Writable) (h : lower t = .ok t') : t'.Writable :=
  Term.writable_transform (fun _ _ => writable_lowerNode) ht h

/-- The computation notes only what can be written, and what it gives is good. -/
def NotesWritable {α : Type} (good : α → Prop) (x : ExceptT Error (StateM (List Term)) α) : Prop :=
  ∀ notes : List Term, WritableAll notes →
    WritableAll (x.run notes).2 ∧ ∀ a, (x.run notes).1 = .ok a → good a

namespace NotesWritable

variable {α β : Type} {P : α → Prop} {Q : β → Prop}

theorem pure {a : α} (h : P a) : NotesWritable P (pure a) := by
  intro notes hn
  refine ⟨hn, fun b hb => ?_⟩
  cases hb
  exact h

/-- The notes of a row are those of its steps, one after the other; those from before a failure are kept. -/
theorem bind {x : ExceptT Error (StateM (List Term)) α} {f : α → ExceptT Error (StateM (List Term)) β}
    (hx : NotesWritable P x) (hf : ∀ a, P a → NotesWritable Q (f a)) : NotesWritable Q (x >>= f) := by
  intro notes hn
  obtain ⟨hnotes, hgood⟩ := hx notes hn
  rw [run_bind]
  rcases hr : x.run notes with ⟨r, notes'⟩
  rw [hr] at hnotes hgood
  cases r with
  | ok a => exact hf a (hgood a rfl) notes' hnotes
  | error e => exact ⟨hnotes, fun b hb => by cases hb⟩

theorem lift {x : Except Error α} (h : ∀ a, x = .ok a → P a) :
    NotesWritable P (liftM x : ExceptT Error (StateM (List Term)) α) := fun _ hn => ⟨hn, h⟩

end NotesWritable

/-- A node is noted as it is before it is lowered, with its children lowered already. -/
theorem notesWritable_lowerNoting {t : Term} (ht : t.Writable) :
    NotesWritable Term.Writable (lowerNoting t) := by
  have hlower : NotesWritable Term.Writable
      (liftM (lowerNode t) : ExceptT Error (StateM (List Term)) Term) :=
    .lift fun _ h => writable_lowerNode ht h
  unfold lowerNoting
  split
  · have hnote : NotesWritable (fun _ => True)
        (modify (· ++ [t]) : ExceptT Error (StateM (List Term)) Unit) :=
      fun _ hn => ⟨Term.writableAll_append.2 ⟨hn, ht, trivial⟩, fun _ _ => trivial⟩
    exact hnote.bind fun _ _ => hlower
  · exact hlower

mutual

/-- The traversal itself, in step with `writable_transformBelow`: below a node all children are noted and
lowered before the node is. -/
theorem notesWritable_below : ∀ {t : Term}, t.Writable →
    NotesWritable Term.Writable (t.transformBelow lowerNoting)
  | .node k s kids, h => by
    refine (notesWritable_all (show WritableAll kids from h)).bind fun kids' hk => ?_
    exact .pure hk
  | .nothing, h => .pure h
  | .flag _, h => .pure h
  | .number _, h => .pure h
  | .text _, h => .pure h
  | .seq _, h => .pure h
  | .arm _ _, h => .pure h
  | .dent _, h => .pure h
  | .symbol _, h => .pure h
  | .kind _, h => .pure h
  | .signature _ _ _, h => .pure h
  | .leaf _ _ _, h => .pure h

theorem notesWritable_all : ∀ {ts : List Term}, WritableAll ts →
    NotesWritable WritableAll (Term.transformAll lowerNoting ts)
  | [], _ => .pure trivial
  | t :: ts, ⟨ht, hts⟩ => by
    refine (notesWritable_below ht).bind fun u hu => ?_
    refine (notesWritable_lowerNoting hu).bind fun t' ht' => ?_
    exact (notesWritable_all hts).bind fun ts' hts' => .pure ⟨ht', hts'⟩

end

/-- **Every line about the lowering of a writable tree can be written.** -/
theorem writable_of_mem_lowerings {t : Term} (h : t.Writable) : ∀ n ∈ lowerings t, n.Writable := by
  have hall : NotesWritable (fun _ => True) (t.transform lowerNoting) := by
    refine (notesWritable_lowerNoting h).bind fun root hroot => ?_
    split
    · exact (notesWritable_all hroot).bind fun _ _ => .pure trivial
    · exact (notesWritable_all hroot).bind fun _ _ => .pure trivial
    · split
      · exact .pure trivial
      · exact fun _ hn => ⟨hn, fun _ _ => trivial⟩
    · exact fun _ hn => ⟨hn, fun _ _ => trivial⟩
  exact Term.writableAll_iff.1 (hall [] trivial).1

end Tree

/-! ## 5. Scopes

A scope is written as the list of its frames, so it has no text as soon as one value in it has none. -/

theorem mapM_eq_some {α β : Type} {f : α → Option β} {xs : List α} (h : ∀ x ∈ xs, ∃ y, f x = some y) :
    ∃ ys, xs.mapM f = some ys := by
  induction xs with
  | nil => exact ⟨[], rfl⟩
  | cons x xs ih =>
    obtain ⟨⟨y, hy⟩, hxs⟩ := List.forall_mem_cons.1 h
    obtain ⟨ys, hys⟩ := ih hxs
    exact ⟨y :: ys, by rw [List.mapM_cons, hy, hys]; rfl⟩

/-- Where all of a list could be written, each of it can. -/
theorem exists_of_mapM_eq_some {α β : Type} {f : α → Option β} {xs : List α} {ys : List β}
    (h : xs.mapM f = some ys) : ∀ x ∈ xs, ∃ y, f x = some y := by
  induction xs generalizing ys with
  | nil => exact List.forall_mem_nil _
  | cons x xs ih =>
    rw [List.mapM_cons] at h
    obtain ⟨y, hy, h⟩ := Option.bind_eq_some_iff.1 h
    obtain ⟨ys', hys, -⟩ := Option.bind_eq_some_iff.1 h
    exact List.forall_mem_cons.2 ⟨⟨y, hy⟩, ih hys⟩

/-- A frame of writable values can be written. -/
theorem Frame.shown?_of_writable {f : Frame Term} (h : ∀ e ∈ f.entries, e.2.Writable) :
    ∃ s, f.shown? = some s := by
  unfold Frame.shown?
  split
  · exact ⟨_, rfl⟩
  · refine Exists.elim (mapM_eq_some fun e he => ?_) fun ss hss => ⟨_, congrArg (Option.map _) hss⟩
    obtain ⟨s, hs⟩ := (h e he).write? false
    exact ⟨_, congrArg (Option.map _) hs⟩

/-- Nothing else has a text. -/
theorem Frame.writable_of_shown? {f : Frame Term} {s : String} (h : f.shown? = some s) :
    ∀ e ∈ f.entries, e.2.Writable := by
  unfold Frame.shown? at h
  split at h
  · rename_i hnil
    rw [hnil]
    exact List.forall_mem_nil _
  · obtain ⟨ss, hss, -⟩ := Option.map_eq_some_iff.1 h
    intro e he
    obtain ⟨r, hr⟩ := exists_of_mapM_eq_some hss e he
    obtain ⟨r, hr, -⟩ := Option.map_eq_some_iff.1 hr
    exact .of_write? e.2 hr

/-- A scope cannot be written just if it binds a name to a value that cannot. -/
theorem Scope.shown?_eq_none_iff {s : Scope Term} :
    s.shown? = none ↔ ∃ f ∈ s.top :: s.outer, ∃ e ∈ f.entries, ¬ e.2.Writable := by
  unfold Scope.shown?
  induction s.top :: s.outer with
  | nil => simp [Scope.chainShown?]
  | cons f fs ih =>
    simp only [List.mem_cons, exists_eq_or_imp, ← ih, Scope.chainShown?]
    cases hf : f.shown? with
    | none =>
      have hbad : ∃ e ∈ f.entries, ¬ e.2.Writable := by
        refine Classical.byContradiction fun hall => ?_
        obtain ⟨r, hr⟩ := Frame.shown?_of_writable (f := f) fun e he =>
          Classical.byContradiction fun hw => hall ⟨e, he, hw⟩
        rw [hr] at hf
        cases hf
      simp only [hbad, true_or]
    | some r =>
      have hgood : ¬ ∃ e ∈ f.entries, ¬ e.2.Writable := by
        rintro ⟨e, he, hw⟩
        exact hw (Frame.writable_of_shown? hf e he)
      cases hfs : Scope.chainShown? fs with
      | none => simp
      | some r' => simp only [hgood, false_or, reduceCtorEq]

/-- A scope with a single frame of writable values can be written. -/
theorem Scope.shown?_of_writable {f : Frame Term} (h : ∀ e ∈ f.entries, e.2.Writable) :
    ∃ s, (Scope.shown? ⟨f, []⟩) = some s := by
  obtain ⟨s, hs⟩ := Frame.shown?_of_writable h
  exact ⟨_, by simp only [Scope.shown?, Scope.chainShown?, hs]; rfl⟩

end Offside
