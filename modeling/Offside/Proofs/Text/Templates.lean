import Mathlib.Data.List.Basic
import Offside.Text.Template
/-!
# Texts that are filled in

A text is a row of literal pieces with placeholders in between (`Template`), and there is only one way to
take it apart like that, because a placeholder begins and ends with a brace and has none inside
(`infix_cases`).  To fill in a text is meant to put a value in the place of each placeholder, all at once,
and to expand the escapes of the literal pieces.  It is done in another way: name by name, each time in the
whole text that there is by then, and at the end all escapes of the outcome are expanded.

The first makes no difference as long as the outcome has none of the placeholders in it
(`fillEach_source`).  Whatever looks like one of them at some point is made of literal pieces and values,
and what is filled in later does not touch it, so it is still there in the end (`Spares`).

The second makes no difference if and only if every escape of the outcome lies inside of a literal piece
(`unescape_render_iff`).  Expanding an escape makes the text shorter by one, and to put pieces together
never loses an escape, so it is enough to count them.
-/

namespace Offside.Text

/-! ## 1. Placeholders

All that is needed of a placeholder is where its braces are: the opening one is its first character and the
closing one its last, and the name between them has neither.  So two placeholders in one text are the same
one, or one ends before the other begins. -/

/-- A name that can stand in a placeholder. -/
def IsPlace (n : List Char) : Prop := n ≠ [] ∧ ∀ c ∈ n, inPlaceholder c = true

/-- The placeholder of a name. -/
def hole (n : List Char) : List Char := '\x7b' :: (n ++ ['\x7d'])

variable {m n a b cs : List Char}

theorem IsPlace.opening (h : IsPlace n) : '\x7b' ∉ n := fun hc => absurd (h.2 _ hc) (by decide)

theorem IsPlace.closing (h : IsPlace n) : '\x7d' ∉ n := fun hc => absurd (h.2 _ hc) (by decide)

/-- The only opening brace of a placeholder is its first character. -/
theorem eq_nil_of_hole_eq (h : IsPlace n) (heq : hole n = a ++ '\x7b' :: b) : a = [] := by
  have hrest : '\x7b' ∉ n ++ ['\x7d'] := by simp [h.opening]
  exact ((List.append_cons_inj_of_notMem (List.not_mem_nil) hrest).1 heq).1.symm

/-- Two placeholders that begin at the same spot are the same. -/
theorem eq_of_prefix_hole (hn : IsPlace n) (hm : IsPlace m) (h : hole n <+: hole m ++ b) : n = m := by
  obtain ⟨c, hc⟩ := h
  have hrest : n ++ '\x7d' :: c = m ++ '\x7d' :: b := by simpa [hole] using hc
  rcases List.append_eq_append_iff.1 hrest with ⟨d, rfl, hd⟩ | ⟨d, rfl, hd⟩
  · cases d with
    | nil => exact (List.append_nil n).symm
    | cons x d =>
      obtain ⟨rfl, -⟩ := List.cons.inj hd
      exact absurd (by simp) hm.closing
  · cases d with
    | nil => exact List.append_nil m
    | cons x d =>
      obtain ⟨rfl, -⟩ := List.cons.inj hd
      exact absurd (by simp) hn.closing

/-- A placeholder that begins before another one ends before it.  If it reached into the other one it would
have the opening brace of that inside, and its only opening brace is its first character. -/
theorem prefix_cases (hn : IsPlace n) (hm : IsPlace m) (h : hole n <+: a ++ (hole m ++ b)) :
    hole n <+: a ∨ a = [] ∧ n = m := by
  obtain ⟨c, hc⟩ := h
  rcases List.append_eq_append_iff.1 hc with ⟨d, ha, -⟩ | ⟨d, hd, hrest⟩
  · exact .inl ⟨d, ha.symm⟩
  · cases d with
    | nil => exact .inl ⟨[], by rw [List.append_nil, hd, List.append_nil]⟩
    | cons x d =>
      obtain ⟨rfl, -⟩ := List.cons.inj hrest
      obtain rfl := eq_nil_of_hole_eq hn hd
      exact .inr ⟨rfl, eq_of_prefix_hole hn hm ⟨c, hc⟩⟩

/-- A placeholder does not begin where there is no opening brace. -/
theorem infix_of_closed (ha : '\x7b' ∉ a) (h : hole n <:+: a ++ b) : hole n <:+: b := by
  induction a with
  | nil => exact h
  | cons c a ih =>
    rcases List.infix_cons_iff.1 h with h | h
    · obtain ⟨d, hd⟩ := h
      obtain rfl := (List.cons.inj hd).1
      exact absurd List.mem_cons_self ha
    · exact ih (fun hmem => ha (List.mem_cons_of_mem c hmem)) h

/-- **Two placeholders are the same or stand apart.**  Wherever a placeholder is seen in a text with another
one in it, it is that one, or it lies in what is before it, or in what is after it. -/
theorem infix_cases (hn : IsPlace n) (hm : IsPlace m) (h : hole n <:+: a ++ (hole m ++ b)) :
    hole n <:+: a ∨ n = m ∨ hole n <:+: b := by
  induction a with
  | nil =>
    rcases List.infix_cons_iff.1 h with h | h
    · exact .inr (.inl (eq_of_prefix_hole hn hm h))
    · have hclosed : '\x7b' ∉ m ++ ['\x7d'] := by simp [hm.opening]
      exact .inr (.inr (infix_of_closed hclosed h))
  | cons c a ih =>
    rcases List.infix_cons_iff.1 h with h | h
    · rcases prefix_cases hn hm (a := c :: a) h with h | ⟨h, -⟩
      · exact .inl h.isInfix
      · cases h
    · exact (ih h).imp_left List.infix_cons

/-- No placeholder stands in the text. -/
def Plain (cs : List Char) : Prop := ∀ n, IsPlace n → ¬ hole n <:+: cs

theorem plain_of_not_mem (h : '\x7b' ∉ cs) : Plain cs :=
  fun _ _ hin => h (hin.subset List.mem_cons_self)

/-! ## 2. Looking for placeholders

The search takes a name after an opening brace as far as it goes and then wants the closing one.  It goes on
after what it has found, not after the brace, which is what the count of characters to skip is for. -/

theorem placeholdersFrom_eq_drop (k : Nat) (cs : List Char) :
    placeholdersFrom k cs = placeholdersFrom 0 (cs.drop k) := by
  induction k generalizing cs with
  | zero => rfl
  | succ k ih =>
    cases cs with
    | nil => rfl
    | cons c cs => exact ih cs

theorem takeWhile_place (h : IsPlace n) (b : List Char) :
    (n ++ '\x7d' :: b).takeWhile inPlaceholder = n := by
  rw [List.takeWhile_append_of_pos h.2, List.takeWhile_cons_of_neg (by decide), List.append_nil]

/-- A placeholder at the beginning is found. -/
theorem placeholdersFrom_hole (h : IsPlace n) (b : List Char) :
    placeholdersFrom 0 (hole n ++ b) = n :: placeholdersFrom 0 b := by
  have hrest : hole n ++ b = '\x7b' :: (n ++ '\x7d' :: b) := by simp [hole]
  rw [hrest, placeholdersFrom]
  simp only [takeWhile_place h]
  have hdrop : (n ++ '\x7d' :: b).drop (n.length + 1) = b := by
    rw [List.append_cons]
    exact List.drop_left' (by simp)
  rw [if_pos (by simp [h.1]), placeholdersFrom_eq_drop, hdrop]

/-- Where none begins, the search goes on. -/
theorem placeholdersFrom_cons {c : Char} (h : ∀ n, IsPlace n → ¬ hole n <+: c :: cs) :
    placeholdersFrom 0 (c :: cs) = placeholdersFrom 0 cs := by
  rw [placeholdersFrom]
  refine if_neg fun hfound => ?_
  simp only [Bool.and_eq_true, decide_eq_true_eq, Bool.not_eq_true', List.isEmpty_eq_false_iff] at hfound
  obtain ⟨⟨rfl, hne⟩, hclose⟩ := hfound
  have hplace : IsPlace (cs.takeWhile inPlaceholder) :=
    ⟨hne, List.all_eq_true.1 (List.all_takeWhile)⟩
  obtain ⟨rest, hrest⟩ := List.takeWhile_prefix (l := cs) inPlaceholder
  have hdrop : cs.drop (cs.takeWhile inPlaceholder).length = rest := by
    nth_rewrite 2 [← hrest]
    exact List.drop_left' rfl
  rw [hdrop] at hclose
  obtain ⟨d, rfl⟩ := List.head?_eq_some_iff.1 hclose
  exact h _ hplace ⟨d, by rw [hole, List.cons_append, List.append_assoc]; exact congrArg _ hrest⟩

theorem placeholdersFrom_plain (h : Plain cs) : placeholdersFrom 0 cs = [] := by
  induction cs with
  | nil => rfl
  | cons c cs ih =>
    rw [placeholdersFrom_cons fun n hn hin => h n hn hin.isInfix]
    exact ih fun n hn hin => h n hn (List.infix_cons hin)

/-- The first placeholder is the first one that is found. -/
theorem placeholdersFrom_append (ha : Plain a) (hn : IsPlace n) (b : List Char) :
    placeholdersFrom 0 (a ++ (hole n ++ b)) = n :: placeholdersFrom 0 b := by
  induction a with
  | nil => exact placeholdersFrom_hole hn b
  | cons c a ih =>
    have hfirst : ∀ m, IsPlace m → ¬ hole m <+: c :: a ++ (hole n ++ b) := by
      intro m hm hin
      rcases prefix_cases hm hn hin with hin | ⟨hnil, -⟩
      · exact ha m hm hin.isInfix
      · cases hnil
    calc placeholdersFrom 0 (c :: (a ++ (hole n ++ b)))
        = placeholdersFrom 0 (a ++ (hole n ++ b)) := placeholdersFrom_cons hfirst
      _ = n :: placeholdersFrom 0 b := ih fun m hm hin => ha m hm (List.infix_cons hin)

/-! ## 3. Templates

The text is taken apart in the order in which the search finds its placeholders, so their names are what is
found (`placeholders_source`). -/

/-- A text, taken apart at its placeholders: a literal piece, and after it placeholders, each with the
literal piece that follows it. -/
structure Template where
  head : List Char
  tail : List (List Char × List Char)
  plain_head : Plain head
  isPlace_tail : ∀ p ∈ tail, IsPlace p.1
  plain_tail : ∀ p ∈ tail, Plain p.2

/-- The part of a template after its first piece, with something in the place of each placeholder. -/
def renderTail (g : List Char → List Char) (ps : List (List Char × List Char)) : List Char :=
  ps.flatMap fun p => g p.1 ++ p.2

namespace Template

/-- The template with something in the place of each placeholder. -/
def render (t : Template) (g : List Char → List Char) : List Char := t.head ++ renderTail g t.tail

/-- The text that was taken apart. -/
def source (t : Template) : List Char := t.render hole

/-- The names of the placeholders in order, with repetitions. -/
def names (t : Template) : List (List Char) := t.tail.map (·.1)

/-- The placeholders that are found in a text are those of the template, in order. -/
theorem placeholders_source (t : Template) : placeholders t.source = t.names := by
  obtain ⟨head, tail, hhead, hplace, hplain⟩ := t
  simp only [placeholders, source, render, names]
  induction tail generalizing head with
  | nil => rw [renderTail, List.flatMap_nil, List.append_nil, placeholdersFrom_plain hhead, List.map_nil]
  | cons p ps ih =>
    obtain ⟨hp, hps⟩ := List.forall_mem_cons.1 hplace
    obtain ⟨hp', hps'⟩ := List.forall_mem_cons.1 hplain
    rw [renderTail, List.flatMap_cons, List.append_assoc, placeholdersFrom_append hhead hp, List.map_cons]
    exact congrArg _ (ih p.2 hp' hps hps')

/-- Every text can be taken apart.  By induction on its length: a placeholder at the beginning is split off,
and any other character is put in front of the first literal piece of the rest.  No placeholder arises there,
since it would have been one at the beginning of the text. -/
theorem exists_source_eq (cs : List Char) : ∃ t : Template, t.source = cs := by
  induction hlength : cs.length using Nat.strongRecOn generalizing cs with
  | ind k ih =>
    cases cs with
    | nil => exact ⟨⟨[], [], plain_of_not_mem List.not_mem_nil, by simp, by simp⟩, rfl⟩
    | cons c cs =>
      by_cases hfirst : ∃ n, IsPlace n ∧ hole n <+: c :: cs
      · obtain ⟨n, hn, rest, hrest⟩ := hfirst
        have hshort : rest.length < k := by
          rw [← hlength, ← hrest]
          simp only [hole, List.length_append, List.length_cons]
          omega
        obtain ⟨t, ht⟩ := ih _ hshort rest rfl
        refine ⟨⟨[], (n, t.head) :: t.tail, plain_of_not_mem List.not_mem_nil,
          List.forall_mem_cons.2 ⟨hn, t.isPlace_tail⟩,
          List.forall_mem_cons.2 ⟨t.plain_head, t.plain_tail⟩⟩, ?_⟩
        rw [← hrest, ← ht]
        simp [source, render, renderTail]
      · obtain ⟨t, ht⟩ := ih _ (by rw [← hlength]; exact Nat.lt_succ_self _) cs rfl
        have hplain : Plain (c :: t.head) := by
          intro n hn hin
          rcases List.infix_cons_iff.1 hin with hin | hin
          · refine hfirst ⟨n, hn, hin.trans (List.cons_prefix_cons.2 ⟨rfl, ?_⟩)⟩
            rw [← ht]
            exact List.prefix_append t.head _
          · exact t.plain_head n hn hin
        exact ⟨⟨c :: t.head, t.tail, hplain, t.isPlace_tail, t.plain_tail⟩, congrArg (c :: ·) ht⟩

end Template

/-! ## 4. Filling in one name

Every place of the name is replaced, from left to right, and what has been put in is not searched again. -/

theorem replaceFrom_eq_drop (old new : List Char) (k : Nat) (cs : List Char) :
    replaceFrom old new k cs = replaceFrom old new 0 (cs.drop k) := by
  induction k generalizing cs with
  | zero => rfl
  | succ k ih =>
    cases cs with
    | nil => rfl
    | cons c cs => exact ih cs

theorem replaceFrom_cons {old cs : List Char} {c : Char} (h : ¬ old <+: c :: cs) (new : List Char) :
    replaceFrom old new 0 (c :: cs) = c :: replaceFrom old new 0 cs := by
  rw [replaceFrom, if_neg fun hp => h (List.isPrefixOf_iff_prefix.1 hp)]

/-- A place at the beginning is replaced, and the search goes on after it. -/
theorem replaceFrom_append {old : List Char} (h : old ≠ []) (new b : List Char) :
    replaceFrom old new 0 (old ++ b) = new ++ replaceFrom old new 0 b := by
  cases old with
  | nil => exact absurd rfl h
  | cons c old =>
    have hfound : (c :: old).isPrefixOf (c :: (old ++ b)) = true := List.isPrefixOf_iff_prefix.2 ⟨b, rfl⟩
    rw [List.cons_append, replaceFrom, if_pos hfound, replaceFrom_eq_drop, List.length_cons,
      Nat.add_sub_cancel, List.drop_left' rfl]

theorem replaceFrom_of_absent {old : List Char} (h : ¬ old <:+: cs) (new : List Char) :
    replaceFrom old new 0 cs = cs := by
  induction cs with
  | nil => rfl
  | cons c cs ih =>
    rw [replaceFrom_cons (fun hp => h hp.isInfix), ih fun hin => h (List.infix_cons hin)]

theorem fill_of_absent (h : ¬ hole n <:+: cs) (v : List Char) : fill n v cs = cs :=
  replaceFrom_of_absent h v

/-- The first place of a placeholder gets the value, and then the rest is filled in. -/
theorem fill_append (hn : IsPlace n) (ha : ¬ hole n <:+: a) (v b : List Char) :
    fill n v (a ++ (hole n ++ b)) = a ++ (v ++ fill n v b) := by
  induction a with
  | nil => exact replaceFrom_append (List.cons_ne_nil _ _) v b
  | cons c a ih =>
    have hfirst : ¬ hole n <+: c :: (a ++ (hole n ++ b)) := by
      intro hin
      rcases prefix_cases (a := c :: a) hn hn hin with hin | ⟨hnil, -⟩
      · exact ha hin.isInfix
      · cases hnil
    calc fill n v (c :: (a ++ (hole n ++ b)))
        = c :: fill n v (a ++ (hole n ++ b)) := replaceFrom_cons hfirst v
      _ = c :: (a ++ (v ++ fill n v b)) := by rw [ih fun hin => ha (List.infix_cons hin)]

/-! ## 5. Filling in all names

After some of the names have been filled in, the text is the template with `g` in its places, where `g` gives
the value of a name or still its placeholder (`Partly`).  To fill in the next name is to change `g` at this
name, as long as its placeholder is seen in no other place of the text (`fill_renderTail`).  A place where it
is seen is made of literal pieces and of values, since it stands apart from the placeholders of other names.
So it is there whatever these become, and would be there in the outcome. -/

/-- A placeholder that is seen in the first text, whatever comes after it, is seen in the second one. -/
def Spares (n a b : List Char) : Prop := ∀ y, hole n <:+: a ++ y → hole n <:+: b ++ y

theorem Spares.refl (n a : List Char) : Spares n a a := fun _ h => h

theorem Spares.seen (h : Spares n a b) (hin : hole n <:+: a) : hole n <:+: b := by
  simpa using h [] (by simpa using hin)

theorem Spares.append (h : Spares n a b) (c : List Char) : Spares n (a ++ c) (b ++ c) := by
  intro y hy
  rw [List.append_assoc] at hy ⊢
  exact h _ hy

/-- Another placeholder may get any value.  What is seen of `n` lies before it or after it. -/
theorem Spares.append_hole (hn : IsPlace n) (hm : IsPlace m) (hne : n ≠ m) (h : Spares n a b)
    (v c : List Char) : Spares n (a ++ (hole m ++ c)) (b ++ (v ++ c)) := by
  intro y hy
  rw [List.append_assoc, List.append_assoc] at hy
  rcases infix_cases hn hm hy with hy | rfl | hy
  · exact (h.seen hy).trans ⟨[], v ++ c ++ y, by simp⟩
  · exact absurd rfl hne
  · exact hy.trans ⟨b ++ v, [], by simp⟩

/-- The names of `ps` are partly filled in. -/
def Partly (value g : List Char → List Char) (ps : List (List Char × List Char)) : Prop :=
  ∀ p ∈ ps, IsPlace p.1 ∧ (g p.1 = value p.1 ∨ g p.1 = hole p.1)

theorem renderTail_cons (g : List Char → List Char) (p : List Char × List Char)
    (ps : List (List Char × List Char)) : renderTail g (p :: ps) = g p.1 ++ (p.2 ++ renderTail g ps) := by
  rw [renderTail, List.flatMap_cons, List.append_assoc]
  rfl

variable {value g : List Char → List Char} {ps : List (List Char × List Char)}

theorem Spares.step {p : List Char × List Char} (hn : IsPlace n) (hp : IsPlace p.1)
    (hg : g p.1 = value p.1 ∨ g p.1 = hole p.1 ∧ n ≠ p.1) (h : Spares n a b) :
    Spares n (a ++ (g p.1 ++ p.2)) (b ++ (value p.1 ++ p.2)) := by
  rcases hg with hg | ⟨hg, hne⟩
  · rw [hg]
    exact h.append _
  · rw [hg]
    exact h.append_hole hn hp hne _ _

/-- What is seen of a name that is filled in already is still there when all are.  Going through the template,
each piece is literal, a value already, or the placeholder of another name. -/
theorem spares_renderTail (hn : IsPlace n) (hg : Partly value g ps) (hfilled : g n = value n)
    (h : Spares n a b) : Spares n (a ++ renderTail g ps) (b ++ renderTail value ps) := by
  induction ps generalizing a b with
  | nil => simpa [renderTail] using h
  | cons p ps ih =>
    obtain ⟨⟨hp, hgp⟩, hps⟩ := List.forall_mem_cons.1 hg
    have hgp : g p.1 = value p.1 ∨ g p.1 = hole p.1 ∧ n ≠ p.1 := by
      by_cases hne : n = p.1
      · exact .inl (hne ▸ hfilled)
      · exact hgp.imp_right fun h => ⟨h, hne⟩
    have hrest := ih hps (h.step hn hp hgp)
    simpa only [renderTail_cons, List.append_assoc] using hrest

/-- **One name.**  It gets its value in its own places, and nowhere else.  By induction on the template: `a`
is what has been gone through since the last place of the name, and `b` what that will be in the outcome. -/
theorem fill_renderTail (hn : IsPlace n) (hg : Partly value g ps) (hopen : g n = hole n)
    (h : Spares n a b) (hclean : ¬ hole n <:+: b ++ renderTail value ps) (v : List Char) :
    fill n v (a ++ renderTail g ps) = a ++ renderTail (fun m => if m = n then v else g m) ps := by
  induction ps generalizing a b with
  | nil =>
    have ha : ¬ hole n <:+: a := fun hin => hclean (by simpa [renderTail] using h.seen hin)
    simpa [renderTail] using fill_of_absent ha v
  | cons p ps ih =>
    obtain ⟨⟨hp, hgp⟩, hps⟩ := List.forall_mem_cons.1 hg
    rw [renderTail_cons] at hclean
    rw [renderTail_cons, renderTail_cons]
    by_cases hne : p.1 = n
    · -- here is a place, and nothing is left over from before it
      have ha : ¬ hole n <:+: a := by
        intro hin
        exact hclean ((h.seen hin).trans (List.prefix_append b _).isInfix)
      have hrest := ih hps (Spares.refl n p.2) (fun hin => hclean (hin.trans ⟨b ++ value p.1, [], by simp⟩))
      rw [hne, hopen, fill_append hn ha, hrest, if_pos rfl]
    · have hgp : g p.1 = value p.1 ∨ g p.1 = hole p.1 ∧ n ≠ p.1 :=
        hgp.imp_right fun h => ⟨h, Ne.symm hne⟩
      have hrest := ih hps (h.step hn hp hgp) (by simpa only [List.append_assoc] using hclean)
      rw [if_neg hne]
      simpa only [List.append_assoc] using hrest

/-- Fills in names one after the other. -/
def fillEach (qs : List (List Char × List Char)) (cs : List Char) : List Char :=
  qs.foldl (fun cs q => fill q.1 q.2 cs) cs

/-- **One name after the other.**  A name that is listed a second time was filled in before, and by then its
placeholder is nowhere to be seen, so that the value listed first is the one that counts. -/
theorem fillEach_renderTail {qs : List (List Char × List Char)}
    (hqs : ∀ q ∈ qs, q.1 ∈ ps.map (·.1) ∧ ¬ hole q.1 <:+: a ++ renderTail value ps)
    (hg : ∀ p ∈ ps, IsPlace p.1 ∧
      (g p.1 = value p.1 ∨ g p.1 = hole p.1 ∧ qs.lookup p.1 = some (value p.1))) :
    fillEach qs (a ++ renderTail g ps) = a ++ renderTail value ps := by
  induction qs generalizing g with
  | nil =>
    have hsame : ∀ p ∈ ps, g p.1 ++ p.2 = value p.1 ++ p.2 := by
      intro p hp
      rcases (hg p hp).2 with h | ⟨-, h⟩
      · rw [h]
      · cases h
    exact congrArg (a ++ ·) (List.flatMap_congr hsame)
  | cons q qs ih =>
    obtain ⟨n, v⟩ := q
    obtain ⟨⟨hmem, hclean⟩, hrest⟩ := List.forall_mem_cons.1 hqs
    obtain ⟨p, hp, rfl⟩ := List.mem_map.1 hmem
    have hpartly : Partly value g ps := fun p hp => ⟨(hg p hp).1, (hg p hp).2.imp_right And.left⟩
    have hother : ∀ m, m ≠ p.1 → ((p.1, v) :: qs).lookup m = qs.lookup m := by
      intro m hne
      rw [List.lookup_cons, beq_false_of_ne hne]
    obtain ⟨hplace, hfilled | ⟨hopen, hlookup⟩⟩ := hg p hp
    · -- a name that was filled in before, since it has a second place
      have hnone : ¬ hole p.1 <:+: a ++ renderTail g ps := by
        intro hin
        exact hclean ((spares_renderTail hplace hpartly hfilled (Spares.refl p.1 a)).seen hin)
      have hstep : fillEach ((p.1, v) :: qs) (a ++ renderTail g ps) = fillEach qs (a ++ renderTail g ps) :=
        congrArg (fillEach qs) (fill_of_absent hnone v)
      rw [hstep]
      refine ih hrest fun p' hp' => ⟨(hg p' hp').1, ?_⟩
      by_cases hne : p'.1 = p.1
      · exact .inl (hne ▸ hfilled)
      · rw [← hother p'.1 hne]
        exact (hg p' hp').2
    · rw [List.lookup_cons_self] at hlookup
      obtain rfl := Option.some.inj hlookup
      have hstep := fill_renderTail hplace hpartly hopen (Spares.refl p.1 a) hclean (value p.1)
      refine (congrArg (fillEach qs) hstep).trans (ih hrest fun p' hp' => ⟨(hg p' hp').1, ?_⟩)
      by_cases hne : p'.1 = p.1
      · exact .inl (by rw [if_pos hne, hne])
      · rw [if_neg hne, ← hother p'.1 hne]
        exact (hg p' hp').2

/-- The value that is listed first for a name. -/
def firstOf (qs : List (List Char × List Char)) (n : List Char) : List Char := (qs.lookup n).getD []

/-- **One name after the other, or all at once.**  If the outcome has none of the placeholders in it, it
makes no difference that they were filled in one after the other. -/
theorem fillEach_source (t : Template) {vs : List (List Char)} (hlength : vs.length = t.names.length)
    (hclean : ∀ n ∈ t.names, ¬ hole n <:+: t.render (firstOf (t.names.zip vs))) :
    fillEach (t.names.zip vs) t.source = t.render (firstOf (t.names.zip vs)) := by
  refine fillEach_renderTail (fun q hq => ?_) fun p hp => ⟨t.isPlace_tail p hp, .inr ⟨rfl, ?_⟩⟩
  · have hname : q.1 ∈ t.names := (List.of_mem_zip hq).1
    exact ⟨hname, hclean q.1 hname⟩
  · have hname : p.1 ∈ (t.names.zip vs).map (·.1) := by
      rw [List.map_fst_zip (by omega)]
      exact List.mem_map_of_mem hp
    obtain ⟨q, hq, hqp⟩ := List.mem_map.1 hname
    have hsome : ((t.names.zip vs).lookup p.1).isSome = true :=
      List.lookup_isSome_iff.2 ⟨q, hq, by simp [hqp]⟩
    obtain ⟨v, hv⟩ := Option.isSome_iff_exists.1 hsome
    rw [firstOf, hv, Option.getD_some]

/-! ## 6. Escapes

`escapes` counts the spots at which an escape begins.  No two of them overlap, and expanding takes one
character away at each, so the number can be read off from the lengths before and after (`length_unescape`).
-/

/-- An escape begins here. -/
def startsEscape (cs : List Char) : Bool := ['\\', 'n'].isPrefixOf cs || ['\\', 't'].isPrefixOf cs

/-- The number of escapes. -/
def escapes : List Char → Nat
  | [] => 0
  | c :: cs => (if startsEscape (c :: cs) then 1 else 0) + escapes cs

/-- An escape begins at the end of one text and ends at the beginning of the other. -/
def meets (a b : List Char) : Bool := a.getLast? = some '\\' && startsEscape ('\\' :: b)

theorem startsEscape_iff :
    startsEscape cs = true ↔ ∃ rest, cs = '\\' :: 'n' :: rest ∨ cs = '\\' :: 't' :: rest := by
  simp only [startsEscape, Bool.or_eq_true, List.isPrefixOf_iff_prefix]
  constructor
  · rintro (⟨rest, rfl⟩ | ⟨rest, rfl⟩)
    · exact ⟨rest, .inl rfl⟩
    · exact ⟨rest, .inr rfl⟩
  · rintro ⟨rest, rfl | rfl⟩
    · exact .inl ⟨rest, rfl⟩
    · exact .inr ⟨rest, rfl⟩

theorem unescape_newline (cs : List Char) : unescape ('\\' :: 'n' :: cs) = '\n' :: unescape cs := by
  have hfirst : replaceAll ['\\', 'n'] ['\n'] ('\\' :: 'n' :: cs) =
      '\n' :: replaceAll ['\\', 'n'] ['\n'] cs := replaceFrom_append (by decide) _ cs
  rw [unescape, hfirst]
  exact replaceFrom_cons (by simp) _

theorem unescape_tab (cs : List Char) : unescape ('\\' :: 't' :: cs) = '\t' :: unescape cs := by
  have hfirst : replaceAll ['\\', 'n'] ['\n'] ('\\' :: 't' :: cs) =
      '\\' :: 't' :: replaceAll ['\\', 'n'] ['\n'] cs := by
    refine (replaceFrom_cons (by simp) _).trans (congrArg _ ?_)
    exact replaceFrom_cons (by simp) _
  rw [unescape, hfirst]
  exact replaceFrom_append (by decide) _ _

/-- Where no escape begins, the character stays.  The two kinds of escapes are expanded one after the other,
so it has to be shown that the first kind does not make one of the second. -/
theorem unescape_cons {c : Char} (h : startsEscape (c :: cs) = false) :
    unescape (c :: cs) = c :: unescape cs := by
  have hline : ¬ ['\\', 'n'] <+: c :: cs := by
    rintro ⟨rest, hrest⟩
    rw [startsEscape_iff.2 ⟨rest, .inl hrest.symm⟩] at h
    cases h
  have htab : ¬ ['\\', 't'] <+: c :: cs := by
    rintro ⟨rest, hrest⟩
    rw [startsEscape_iff.2 ⟨rest, .inr hrest.symm⟩] at h
    cases h
  -- a line feed that was put in is no letter of the other escape
  have hrest : ¬ ['\\', 't'] <+: c :: replaceAll ['\\', 'n'] ['\n'] cs := by
    rw [List.cons_prefix_cons] at htab ⊢
    rintro ⟨rfl, ht⟩
    refine htab ⟨rfl, ?_⟩
    cases cs with
    | nil => exact ht
    | cons d cs =>
      by_cases hd : ['\\', 'n'] <+: d :: cs
      · obtain ⟨rest, hrest⟩ := hd
        rw [← hrest, replaceAll, replaceFrom_append (by decide)] at ht
        simp at ht
      · rw [replaceAll, replaceFrom_cons hd] at ht
        simpa using ht
  rw [unescape, replaceAll, replaceAll, replaceFrom_cons hline]
  exact replaceFrom_cons hrest _

/-- Expanding an escape replaces two characters by one. -/
theorem exists_unescape_eq {c : Char} (h : startsEscape (c :: cs) = true) :
    ∃ d e rest, cs = d :: rest ∧
      ∀ b, unescape (c :: d :: b) = e :: unescape b ∧ unescape (d :: b) = d :: unescape b := by
  obtain ⟨rest, hrest | hrest⟩ := startsEscape_iff.1 h
  · obtain ⟨rfl, rfl⟩ := List.cons.inj hrest
    refine ⟨'n', '\n', rest, rfl, fun b => ⟨unescape_newline b, unescape_cons ?_⟩⟩
    simp [startsEscape, List.isPrefixOf]
  · obtain ⟨rfl, rfl⟩ := List.cons.inj hrest
    refine ⟨'t', '\t', rest, rfl, fun b => ⟨unescape_tab b, unescape_cons ?_⟩⟩
    simp [startsEscape, List.isPrefixOf]

/-- Expanding makes a text shorter by the number of its escapes. -/
theorem length_unescape (cs : List Char) : (unescape cs).length + escapes cs = cs.length := by
  induction cs with
  | nil => rfl
  | cons c cs ih =>
    cases h : startsEscape (c :: cs) with
    | true =>
      obtain ⟨d, e, rest, rfl, hrest⟩ := exists_unescape_eq h
      rw [(hrest rest).2] at ih
      rw [(hrest rest).1, escapes, h, if_pos rfl]
      simp only [List.length_cons] at ih ⊢
      omega
    | false =>
      simp only [unescape_cons h, escapes, h, Bool.false_eq_true, if_false, List.length_cons]
      omega

theorem unescape_of_escapes_eq_zero (h : escapes cs = 0) : unescape cs = cs := by
  induction cs with
  | nil => rfl
  | cons c cs ih =>
    rw [escapes] at h
    cases hc : startsEscape (c :: cs) with
    | true => simp [hc] at h
    | false => rw [unescape_cons hc, ih (by omega)]

/-- Without a backslash there is no escape. -/
theorem escapes_of_not_mem (h : '\\' ∉ cs) : escapes cs = 0 := by
  induction cs with
  | nil => rfl
  | cons c cs ih =>
    have hc : startsEscape (c :: cs) = false := by
      rw [Bool.eq_false_iff]
      intro hstart
      obtain ⟨rest, hrest | hrest⟩ := startsEscape_iff.1 hstart
      all_goals exact h (hrest ▸ List.mem_cons_self)
    rw [escapes, hc, ih fun hmem => h (List.mem_cons_of_mem c hmem)]
    rfl

theorem startsEscape_append (c d : Char) (a b : List Char) :
    startsEscape (c :: d :: (a ++ b)) = startsEscape (c :: d :: a) := by
  simp [startsEscape, List.isPrefixOf]

theorem startsEscape_singleton (c : Char) : startsEscape [c] = false := by
  simp [startsEscape, List.isPrefixOf]

theorem meets_singleton (c : Char) (b : List Char) : meets [c] b = startsEscape (c :: b) := by
  by_cases hc : c = '\\'
  · simp [meets, hc]
  · simp [meets, hc, startsEscape, List.isPrefixOf, Ne.symm hc]

theorem meets_cons (c d : Char) (a b : List Char) : meets (c :: d :: a) b = meets (d :: a) b := by
  simp [meets]

/-- An escape of a text that is put together lies in one of the parts or where they meet.  Two escapes do not
overlap, so the one where they meet takes none away from either part. -/
theorem escapes_append (a b : List Char) :
    escapes (a ++ b) = escapes a + escapes b + (if meets a b then 1 else 0) := by
  induction a with
  | nil => simp [escapes, meets]
  | cons c a ih =>
    cases a with
    | nil =>
      simp only [List.singleton_append, escapes, startsEscape_singleton, meets_singleton]
      simp only [Bool.false_eq_true, if_false]
      omega
    | cons d a =>
      simp only [List.cons_append] at ih ⊢
      rw [escapes, startsEscape_append, ih, meets_cons, escapes.eq_2 c (d :: a)]
      omega

/-- Where no escape lies across the seam, the parts can be expanded one by one. -/
theorem unescape_append (h : meets a b = false) : unescape (a ++ b) = unescape a ++ unescape b := by
  induction a with
  | nil => rfl
  | cons c a ih =>
    cases a with
    | nil =>
      rw [meets_singleton] at h
      rw [List.singleton_append, unescape_cons h, unescape_cons (startsEscape_singleton c)]
      rfl
    | cons d a =>
      rw [meets_cons] at h
      have hrest := ih h
      simp only [List.cons_append] at hrest ⊢
      cases hc : startsEscape (c :: d :: a) with
      | true =>
        obtain ⟨_, e, _, hcons, hpair⟩ := exists_unescape_eq hc
        obtain ⟨rfl, rfl⟩ := List.cons.inj hcons
        rw [(hpair _).2, (hpair _).2, List.cons_append] at hrest
        rw [(hpair _).1, (hpair _).1, (List.cons.inj hrest).2, List.cons_append]
      | false =>
        rw [unescape_cons hc, unescape_cons (by rw [startsEscape_append, hc]), hrest, List.cons_append]

/-! ## 7. Escapes in templates

Putting pieces together can make an escape but never takes one away.  So the whole has at least the escapes of
the literal pieces; if it has no more, no value has one, no two pieces make one where they meet, and each
piece can be expanded by itself.  If it has more, the outcome is too short. -/

namespace Template

/-- The template with its values, and with the escapes of its literal pieces expanded. -/
def substituted (t : Template) (value : List Char → List Char) : List Char :=
  unescape t.head ++ t.tail.flatMap fun p => value p.1 ++ unescape p.2

end Template

/-- The number of escapes in the literal pieces after the placeholders. -/
def escapesAfter : List (List Char × List Char) → Nat
  | [] => 0
  | p :: ps => escapes p.2 + escapesAfter ps

/-- The number of escapes in the literal pieces. -/
def Template.literalEscapes (t : Template) : Nat := escapes t.head + escapesAfter t.tail

/-- The escapes of the literal pieces are escapes of the whole. -/
theorem le_escapes_renderTail (a : List Char) (ps : List (List Char × List Char)) :
    escapes a + escapesAfter ps ≤ escapes (a ++ renderTail value ps) := by
  induction ps generalizing a with
  | nil => simp [renderTail, escapesAfter]
  | cons p ps ih =>
    rw [renderTail_cons, escapes_append, escapes_append, escapesAfter]
    have := ih p.2
    omega

/-- If there are no others, each piece can be expanded by itself. -/
theorem unescape_renderTail
    (h : escapes (a ++ renderTail value ps) = escapes a + escapesAfter ps) :
    unescape (a ++ renderTail value ps) = unescape a ++ ps.flatMap fun p => value p.1 ++ unescape p.2 := by
  induction ps generalizing a with
  | nil => simp [renderTail]
  | cons p ps ih =>
    have hrest : escapes p.2 + escapesAfter ps ≤ escapes (p.2 ++ renderTail value ps) :=
      le_escapes_renderTail p.2 ps
    rw [renderTail_cons, escapes_append, escapes_append, escapesAfter] at h
    have hvalue : escapes (value p.1) = 0 := by omega
    have hbefore : meets a (value p.1 ++ (p.2 ++ renderTail value ps)) = false := by
      by_contra hmeets
      rw [Bool.not_eq_false] at hmeets
      rw [hmeets, if_pos rfl] at h
      omega
    have hafter : meets (value p.1) (p.2 ++ renderTail value ps) = false := by
      by_contra hmeets
      rw [Bool.not_eq_false] at hmeets
      rw [hmeets, if_pos rfl] at h
      omega
    rw [renderTail_cons, unescape_append hbefore, unescape_append hafter, ih (by omega),
      unescape_of_escapes_eq_zero hvalue, List.flatMap_cons, List.append_assoc]

/-- What the literal pieces lose by expanding is the number of their escapes; the values lose nothing. -/
theorem length_substituted (t : Template) (value : List Char → List Char) :
    (t.substituted value).length + t.literalEscapes = (t.render value).length := by
  have htail : ∀ ps : List (List Char × List Char),
      (ps.flatMap fun p => value p.1 ++ unescape p.2).length + escapesAfter ps =
        (renderTail value ps).length := by
    intro ps
    induction ps with
    | nil => rfl
    | cons p ps ih =>
      have hp := length_unescape p.2
      simp only [List.flatMap_cons, escapesAfter, renderTail_cons, List.length_append]
      omega
  have hhead := length_unescape t.head
  have htail := htail t.tail
  simp only [Template.substituted, Template.literalEscapes, Template.render, List.length_append]
  omega

/-- **Escapes in the whole, or in the pieces.**  To expand the escapes of the whole text is the same as to
expand those of the literal pieces, if and only if there are no others. -/
theorem unescape_render_iff (t : Template) (value : List Char → List Char) :
    unescape (t.render value) = t.substituted value ↔ escapes (t.render value) = t.literalEscapes := by
  constructor
  · intro h
    have hwhole := length_unescape (t.render value)
    have hpieces := length_substituted t value
    rw [h] at hwhole
    omega
  · exact unescape_renderTail

end Offside.Text
