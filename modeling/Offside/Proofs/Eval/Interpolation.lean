import Offside.Proofs.Eval.Matching
import Offside.Proofs.Journal.Writable
import Offside.Proofs.Text.Templates
import Offside.Proofs.Token.Identifiers
/-!
# Filling in the placeholders of a text

The text of a text literal is the literal with the texts of values in the place of its placeholders.  It is
meant to be that for every name, and for all placeholders at once.  Neither is quite so.

* The names in placeholders are not those of variables.  A variable may have digits and underscores in its
  name, a placeholder may not: `{x1}` stays as it is, whatever `x1` is bound to.  So a variable can be
  filled in if and only if its name consists of letters (`text_of_variable`).
* The placeholders are filled in one after the other, each time in the whole text that there is by then,
  and the escapes are expanded in the outcome.  As long as no placeholder comes about by that, the values
  are put in as if it were done at once; and then escapes come from the literal pieces alone if and only
  if there are as many in the outcome as in these (`text_substitutes`).
-/

namespace Offside

namespace Eval

open Text (Template IsPlace Plain hole firstOf)

variable {r : Meaning} {w w' : World}

/-! ## 1. One value after the other

Each name is looked up, its value is turned into text, and the text is put in everywhere.  The text of a value
may need evaluation, which may change the world, so `Fills` keeps the worlds apart.  What is put in does not
depend on the world any more (`Fills.run_fillAll`), and the rest is about texts alone. -/

/-- The placeholders are bound to values that have these texts, each one in the world that is left after
the text of the one before it was found. -/
inductive Fills (r : Meaning) : World → List (List Char) → List (List Char) → World → Prop where
  | nil (w : World) : Fills r w [] [] w
  | cons {w w₁ w₂ : World} {x : List Char} {xs ts : List (List Char)} {v : Term} {t : String}
      (hvalue : w.scope.get? (String.ofList x) = some v) (htext : (r.text v).run w = (.ok t, w₁))
      (h : Fills r w₁ xs ts w₂) : Fills r w (x :: xs) (t.toList :: ts) w₂

theorem Fills.length_eq {xs ts : List (List Char)} (h : Fills r w xs ts w') : ts.length = xs.length := by
  induction h with
  | nil => rfl
  | cons _ _ _ ih => exact congrArg Nat.succ ih

/-- The loop over the names is the loop over pairs of names and texts, once all texts are known. -/
theorem Fills.run_fillAll {xs ts : List (List Char)} (h : Fills r w xs ts w') (cs : List Char) :
    (fillAll r xs cs).run w = (.ok (Text.fillEach (xs.zip ts) cs), w') := by
  induction h generalizing cs with
  | nil => rfl
  | cons hvalue htext _ ih =>
    rw [fillAll, run_bind_of_ok (run_lookup hvalue), run_bind_of_ok htext, ih]
    rfl

/-- What is done when placeholders are filled in one after the other. -/
theorem run_text_of_fills {n : Nat} {s : String} {ts : List (List Char)}
    (h : Fills (meaning n) w (Text.placeholders s.toList) ts w') (site : Site) :
    ((meaning (n + 1)).text (.leaf (.datum .str) site (.text s))).run w =
      (.ok (String.ofList (Text.unescape
        (Text.fillEach ((Text.placeholders s.toList).zip ts) s.toList))), w') := by
  show (interpolate (meaning n) s).run w = _
  rw [interpolate, run_bind_of_ok (h.run_fillAll s.toList)]
  rfl

/-- **What the text of a literal is.**  Every literal can be taken apart at its placeholders.  Let these be
bound to values with texts.  Then the literal is filled in name by name and the escapes of the outcome are
expanded.  If none of the placeholders stands in what comes about when the texts are put in at once, that is
the outcome; and it is what it is meant to be, with the escapes of the literal pieces expanded and the texts
as they are, if and only if there are no escapes but those of the literal pieces. -/
theorem text_substitutes (s : String) :
    (∃ t : Template, t.source = s.toList) ∧
    ∀ t : Template, t.source = s.toList →
      t.names = Text.placeholders s.toList ∧
      ∀ (n : Nat) (site : Site) (w w' : World) (ts : List (List Char)),
        Fills (meaning n) w t.names ts w' →
        ((meaning (n + 1)).text (.leaf (.datum .str) site (.text s))).run w =
          (.ok (String.ofList (Text.unescape (Text.fillEach (t.names.zip ts) s.toList))), w') ∧
        ((∀ x ∈ t.names, ¬ hole x <:+: t.render (firstOf (t.names.zip ts))) →
          ((meaning (n + 1)).text (.leaf (.datum .str) site (.text s))).run w =
            (.ok (String.ofList (Text.unescape (t.render (firstOf (t.names.zip ts))))), w') ∧
          (((meaning (n + 1)).text (.leaf (.datum .str) site (.text s))).run w =
              (.ok (String.ofList (t.substituted (firstOf (t.names.zip ts)))), w') ↔
            Text.escapes (t.render (firstOf (t.names.zip ts))) = t.literalEscapes)) := by
  refine ⟨Template.exists_source_eq s.toList, fun t ht => ?_⟩
  have hnames : t.names = Text.placeholders s.toList := by rw [← ht, t.placeholders_source]
  refine ⟨hnames, fun n site w w' ts hfills => ?_⟩
  have hlength := hfills.length_eq
  have hrun := run_text_of_fills (hnames ▸ hfills) site
  rw [← hnames] at hrun
  refine ⟨hrun, fun hclean => ?_⟩
  rw [← ht, Text.fillEach_source t hlength hclean] at hrun
  refine ⟨hrun, ?_⟩
  rw [hrun, ← Text.unescape_render_iff]
  constructor
  · intro h
    exact String.ofList_inj.1 (Except.ok.inj (Prod.mk.inj h).1)
  · intro h
    rw [h]

/-- A world in which two names stand for texts. -/
def twoTexts (a b : String) : World :=
  { scope := (({} : Scope Term).set "a" (.str a)).set "b" (.str b) }

/-- Pieces without an opening brace, and names between them. -/
theorem exists_template (head : List Char) (tail : List (List Char × List Char)) (hhead : '\x7b' ∉ head)
    (hnames : (tail.all fun p => !p.1.isEmpty && p.1.all Text.inPlaceholder) = true)
    (hpieces : (tail.all fun p => !p.2.contains '\x7b') = true) :
    ∃ t : Template, t.head = head ∧ t.tail = tail := by
  simp only [List.all_eq_true, Bool.and_eq_true, Bool.not_eq_true', List.isEmpty_eq_false_iff] at hnames
  simp only [List.all_eq_true, Bool.not_eq_true', List.contains_eq_mem, decide_eq_false_iff_not] at hpieces
  exact ⟨⟨head, tail, Text.plain_of_not_mem hhead, hnames, fun p hp => Text.plain_of_not_mem (hpieces p hp)⟩,
    rfl, rfl⟩

/-- A name that stands twice, an escape, and a value with braces that is no placeholder. -/
theorem text_substitutes_repeated :
    ∃ t : Template, t.source = "1: \x7ba\x7d, 2: \x7bb\x7d\\n\x7ba\x7d".toList ∧
      ((meaning 2).text (.str "1: \x7ba\x7d, 2: \x7bb\x7d\\n\x7ba\x7d")).run (twoTexts "\x7b1\x7d" "y") =
        (.ok "1: \x7b1\x7d, 2: y\n\x7b1\x7d", twoTexts "\x7b1\x7d" "y") := by
  obtain ⟨t, hhead, htail⟩ := exists_template "1: ".toList
    [("a".toList, ", 2: ".toList), ("b".toList, "\\n".toList), ("a".toList, [])]
    (by decide) (by decide) (by decide)
  have hsource : t.source = "1: \x7ba\x7d, 2: \x7bb\x7d\\n\x7ba\x7d".toList := by
    rw [Template.source, Template.render, hhead, htail]
    decide
  have hnames : t.names = ["a".toList, "b".toList, "a".toList] := by
    rw [Template.names, htail]
    rfl
  have hfills : Fills (meaning 1) (twoTexts "\x7b1\x7d" "y") t.names
      ["\x7b1\x7d".toList, "y".toList, "\x7b1\x7d".toList] (twoTexts "\x7b1\x7d" "y") := by
    rw [hnames]
    exact .cons rfl rfl (.cons rfl rfl (.cons rfl rfl (.nil _)))
  have hrender : t.render (firstOf (t.names.zip ["\x7b1\x7d".toList, "y".toList, "\x7b1\x7d".toList])) =
      "1: \x7b1\x7d, 2: y\\n\x7b1\x7d".toList := by
    rw [hnames, Template.render, hhead, htail]
    decide
  obtain ⟨-, hclean⟩ := ((text_substitutes _).2 t hsource).2 1 none _ _ _ hfills
  rw [hrender] at hclean
  -- no placeholder stands in the outcome, since the letters of the names do not occur in it
  have ha : 'a' ∉ "1: \x7b1\x7d, 2: y\\n\x7b1\x7d".toList := by decide
  have hb : 'b' ∉ "1: \x7b1\x7d, 2: y\\n\x7b1\x7d".toList := by decide
  refine ⟨t, hsource, (hclean fun x hx hin => ?_).1⟩
  simp only [hnames, List.mem_cons, List.not_mem_nil, or_false] at hx
  rcases hx with rfl | rfl | rfl
  · exact ha (hin.subset (by simp [hole]))
  · exact hb (hin.subset (by simp [hole]))
  · exact ha (hin.subset (by simp [hole]))

/-- A value that makes a placeholder together with the literal piece after it, and one that makes an escape
together with the piece before it. -/
theorem text_scans_values :
    (∃ t : Template, t.source = "\x7ba\x7d\x7d\x7bb\x7d".toList ∧
      t.substituted (firstOf (t.names.zip ["\x7bb".toList, "x".toList])) = "\x7bb\x7dx".toList ∧
      ((meaning 2).text (.str "\x7ba\x7d\x7d\x7bb\x7d")).run (twoTexts "\x7bb" "x") =
        (.ok "xx", twoTexts "\x7bb" "x")) ∧
    ∃ t : Template, t.source = "\\\x7ba\x7d".toList ∧
      t.substituted (firstOf (t.names.zip ["n".toList])) = "\\n".toList ∧
      ((meaning 2).text (.str "\\\x7ba\x7d")).run (twoTexts "n" "") = (.ok "\n", twoTexts "n" "") := by
  constructor
  · obtain ⟨t, hhead, htail⟩ :=
      exists_template [] [("a".toList, "\x7d".toList), ("b".toList, [])] (by decide) (by decide) (by decide)
    refine ⟨t, ?_, ?_, rfl⟩
    · rw [Template.source, Template.render, hhead, htail]
      decide
    · rw [Template.substituted, Template.names, hhead, htail]
      decide
  · obtain ⟨t, hhead, htail⟩ :=
      exists_template "\\".toList [("a".toList, [])] (by decide) (by decide) (by decide)
    refine ⟨t, ?_, ?_, rfl⟩
    · rw [Template.source, Template.render, hhead, htail]
      decide
    · rw [Template.substituted, Template.names, hhead, htail]
      decide

/-! ## 2. Variables

A name is put between braces in a text that has no other braces and no backslash.  Then the only placeholder
there can be is this one, and whether it is one is a question about the characters of the name
(`isPlace_chars_iff`): names may have digits and underscores, placeholders may not. -/

/-- The text has no braces and no backslashes. -/
def Unmarked (s : String) : Prop := ∀ c ∈ s.toList, c ≠ '\x7b' ∧ c ≠ '\x7d' ∧ c ≠ '\\'

theorem unmarked_of_all {s : String}
    (h : (s.toList.all fun c => c != '\x7b' && c != '\x7d' && c != '\\') = true) : Unmarked s := by
  simpa [Unmarked, and_assoc] using h

theorem Unmarked.append {s t : String} (hs : Unmarked s) (ht : Unmarked t) : Unmarked (s ++ t) := by
  intro c hc
  rw [String.toList_append, List.mem_append] at hc
  exact hc.elim (hs c) (ht c)

theorem Unmarked.plain {s : String} (h : Unmarked s) : Plain s.toList :=
  Text.plain_of_not_mem fun hc => (h _ hc).1 rfl

/-- The decimal text of a number consists of digits and perhaps a sign. -/
theorem unmarked_decimal {i : Int} {ds : String} (h : Text.decimal? i = some ds) : Unmarked ds := by
  have hdigits : ∀ m : Nat, Unmarked (Nat.repr m) := by
    intro m c hc
    rw [Nat.repr, String.toList_ofList] at hc
    have hdigit : c.isDigit = true := Nat.isDigit_of_mem_toDigits (by decide) (by decide) hc
    refine ⟨?_, ?_, ?_⟩ <;> rintro rfl <;> cases hdigit
  have hsign : Unmarked "-" := unmarked_of_all (by decide)
  unfold Text.decimal? at h
  split at h
  · obtain rfl := Option.some.inj h
    split
    · exact hsign.append (hdigits _)
    · exact hdigits _
  · cases h

variable (x : Lexer.Identifier)

/-- The text with the name between braces in it. -/
def around (u v : String) : String := u ++ "\x7b" ++ x.text ++ "\x7d" ++ v

theorem toList_around (u v : String) :
    (around x u v).toList = u.toList ++ (hole x.chars ++ v.toList) := by
  simp [around, hole, Lexer.Identifier.text, String.toList_append]

theorem not_unmarked_around (u v : String) : ¬ Unmarked (around x u v) := by
  intro h
  refine (h '\x7b' ?_).1 rfl
  simp [toList_around, hole]

/-- A variable can stand in a placeholder if its name consists of letters. -/
theorem isPlace_chars_iff : IsPlace x.chars ↔ x.chars.all Char.isAlpha = true := by
  rw [List.all_eq_true]
  constructor
  · intro h c hc
    have hin := h.2 c hc
    have hname := x.inName_chars c hc
    simp only [Text.inPlaceholder, Bool.or_eq_true, decide_eq_true_eq] at hin
    rcases hin with hin | rfl
    · exact hin
    · cases hname
  · intro h
    refine ⟨List.cons_ne_nil _ _, fun c hc => ?_⟩
    rw [Text.inPlaceholder, h c hc, Bool.true_or]

theorem run_written_number (i : Int) (w : World) :
    (written (.number i)).run w = ((Text.decimal? i).elim (.error .wrongValue) .ok, w) := by
  simp only [written, Term.plain?, Term.write?]
  cases Text.decimal? i <;> rfl

section
variable {u v : String} (hu : Unmarked u) (hv : Unmarked v)

include hu hv

theorem placeholders_around (hx : IsPlace x.chars) :
    Text.placeholders (around x u v).toList = [x.chars] := by
  rw [toList_around, Text.placeholders, Text.placeholdersFrom_append hu.plain hx,
    Text.placeholdersFrom_plain hv.plain]

/-- A name that cannot stand in a placeholder makes none: the only braces are around it. -/
theorem plain_around (hx : ¬ IsPlace x.chars) : Plain (around x u v).toList := by
  rintro n hn ⟨a, b, hab⟩
  have hmark : ∀ c, Lexer.inName c = false → c ∉ x.chars := fun c hc hmem =>
    absurd (x.inName_chars c hmem) (by rw [hc]; exact Bool.false_ne_true)
  have hopen : '\x7b' ∉ x.chars ++ '\x7d' :: v.toList := by
    simp only [List.mem_append, List.mem_cons, not_or]
    exact ⟨hmark _ (by decide), by decide, fun hc => (hv _ hc).1 rfl⟩
  have heq : u.toList ++ '\x7b' :: (x.chars ++ '\x7d' :: v.toList) = a ++ '\x7b' :: (n ++ '\x7d' :: b) := by
    rw [toList_around] at hab
    simpa [hole] using hab.symm
  obtain ⟨-, -, hinner⟩ :=
    (List.append_cons_inj_of_notMem (fun hc => (hu _ hc).1 rfl) hopen).1 heq
  obtain ⟨hname, -, -⟩ :=
    (List.append_cons_inj_of_notMem (hmark _ (by decide)) (fun hc => (hv _ hc).2.1 rfl)).1 hinner
  exact hx (hname ▸ hn)

/-- There is no backslash in the text around the placeholder, and none in the placeholder. -/
theorem unescape_around : Text.unescape (around x u v).toList = (around x u v).toList := by
  refine Text.unescape_of_escapes_eq_zero (Text.escapes_of_not_mem fun hc => ?_)
  rw [toList_around] at hc
  simp only [hole, List.mem_append, List.mem_cons, List.not_mem_nil, or_false] at hc
  rcases hc with hc | (hc | hc | hc) | hc
  · exact (hu _ hc).2.2 rfl
  · cases hc
  · cases x.inName_chars _ hc
  · cases hc
  · exact (hv _ hc).2.2 rfl

/-- The value of the variable in the place of the placeholder. -/
theorem unescape_fill_around (hx : IsPlace x.chars) {ds : String} (hds : Unmarked ds) :
    Text.unescape (Text.fillEach [(x.chars, ds.toList)] (around x u v).toList) = (u ++ ds ++ v).toList := by
  have hfill : Text.fillEach [(x.chars, ds.toList)] (around x u v).toList = (u ++ ds ++ v).toList := by
    show Text.fill x.chars ds.toList (around x u v).toList = _
    rw [toList_around, Text.fill_append hx (hu.plain _ hx), Text.fill_of_absent (hv.plain _ hx),
      String.toList_append, String.toList_append, List.append_assoc]
  rw [hfill]
  refine Text.unescape_of_escapes_eq_zero (Text.escapes_of_not_mem fun hc => ?_)
  exact (((hu.append hds).append hv) _ hc).2.2 rfl

/-- A name that can stand in a placeholder is filled in. -/
theorem run_text_filled (hplace : IsPlace x.chars) {i : Int} {place : Site}
    (hx : w.scope.get? x.text = some (.leaf (.datum .int) place (.number i))) (n : Nat) (site : Site) :
    ((meaning (n + 2)).text (.leaf (.datum .str) site (.text (around x u v)))).run w =
      ((Text.decimal? i).elim (.error .wrongValue) fun ds => .ok (u ++ ds ++ v), w) := by
  have hnames := placeholders_around x hu hv hplace
  have htext : ((meaning (n + 1)).text (.leaf (.datum .int) place (.number i))).run w =
      ((Text.decimal? i).elim (.error .wrongValue) .ok, w) := by
    simp only [meaning, textStep]
    exact run_written_number i w
  cases hi : Text.decimal? i with
  | none =>
    rw [hi] at htext
    have hfirst : Text.placeholders (around x u v).toList = x.text.toList :: [] := by
      rw [hnames, Lexer.Identifier.text, String.toList_ofList]
    exact run_text_of_placeholder hfirst hx htext
  | some ds =>
    rw [hi] at htext
    have hfills : Fills (meaning (n + 1)) w (Text.placeholders (around x u v).toList) [ds.toList] w := by
      rw [hnames]
      exact .cons hx htext (.nil w)
    rw [run_text_of_fills hfills, hnames]
    show (Except.ok (String.ofList (Text.unescape (Text.fillEach [(x.chars, ds.toList)] _))), w) = _
    rw [unescape_fill_around x hu hv hplace (unmarked_decimal hi), String.ofList_toList]
    rfl

/-- A name that cannot stand in one stays as it is. -/
theorem run_text_kept (hplace : ¬ IsPlace x.chars) (w : World) (n : Nat) (site : Site) :
    ((meaning (n + 1)).text (.leaf (.datum .str) site (.text (around x u v)))).run w =
      (.ok (around x u v), w) := by
  have hnone := Text.placeholdersFrom_plain (plain_around x hu hv hplace)
  refine (run_text_plain hnone n w).trans ?_
  rw [unescape_around x hu hv, String.ofList_toList]

end

/-- **Which variables can be filled in.**  Let a name be bound to a number, and let it stand between braces in
a text without other braces and without backslashes.  If it consists of letters, the text has the decimal
text of the number there, and none if the number is too long for one.  If not, it stays as it is. -/
theorem text_of_variable {i : Int} {place : Site}
    (hx : w.scope.get? x.text = some (.leaf (.datum .int) place (.number i))) {u v : String}
    (hu : Unmarked u) (hv : Unmarked v) (n : Nat) (site : Site) :
    ((meaning (n + 2)).text (.leaf (.datum .str) site (.text (around x u v)))).run w =
      (if x.chars.all Char.isAlpha then
        (Text.decimal? i).elim (.error .wrongValue) fun ds => .ok (u ++ ds ++ v)
      else .ok (around x u v), w) ∧
    ∀ ds, Text.decimal? i = some ds →
      (((meaning (n + 2)).text (.leaf (.datum .str) site (.text (around x u v)))).run w =
        (.ok (u ++ ds ++ v), w) ↔ x.chars.all Char.isAlpha = true) := by
  have hrun : ((meaning (n + 2)).text (.leaf (.datum .str) site (.text (around x u v)))).run w =
      (if x.chars.all Char.isAlpha then
        (Text.decimal? i).elim (.error .wrongValue) fun ds => .ok (u ++ ds ++ v)
      else .ok (around x u v), w) := by
    by_cases hletters : x.chars.all Char.isAlpha = true
    · rw [if_pos hletters]
      exact run_text_filled x hu hv ((isPlace_chars_iff x).2 hletters) hx n site
    · rw [if_neg hletters]
      exact run_text_kept x hu hv (fun hplace => hletters ((isPlace_chars_iff x).1 hplace)) w (n + 1) site
  refine ⟨hrun, fun ds hds => ?_⟩
  rw [hrun, hds]
  constructor
  · intro h
    by_contra hletters
    rw [if_neg hletters] at h
    have hmarked := not_unmarked_around x u v
    rw [Except.ok.inj (Prod.mk.inj h).1] at hmarked
    exact hmarked ((hu.append (unmarked_decimal hds)).append hv)
  · intro hletters
    rw [if_pos hletters]
    rfl

/-- A name of letters that is bound to a number with a sign. -/
theorem text_of_variable_total :
    Unmarked "sum: " ∧ Unmarked "!" ∧
    ((meaning 2).text (.str "sum: \x7btotal\x7d!")).run
        { scope := ({} : Scope Term).set "total" (.int (-42)) } =
      (.ok "sum: -42!", { scope := ({} : Scope Term).set "total" (.int (-42)) }) := by
  have hmore : ∀ c ∈ "otal".toList, Lexer.inName c = true := List.all_eq_true.1 (by decide)
  have hbefore : Unmarked "sum: " := unmarked_of_all (by decide)
  have hafter : Unmarked "!" := unmarked_of_all (by decide)
  have hfilled := text_of_variable ⟨'t', "otal".toList, rfl, hmore⟩
    (w := { scope := ({} : Scope Term).set "total" (.int (-42)) }) rfl hbefore hafter 0 none
  have hdecimal : Text.decimal? (-42) = some "-42" :=
    if_pos (Nat.lt_of_lt_of_le (by decide : 42 < Nat.pow 10 2) (Text.pow_le_writingBound (by decide)))
  exact ⟨hbefore, hafter, (hfilled.2 "-42" hdecimal).2 rfl⟩

/-- A name with a digit in it is a name, but it is not filled in. -/
theorem text_keeps_variable :
    Lexer.tokens "x1" = .ok [.dent 0, .word .id "x1"] ∧
    ((meaning 2).text (.str "\x7bx1\x7d")).run { scope := ({} : Scope Term).set "x1" (.int 5) } =
      (.ok "\x7bx1\x7d", { scope := ({} : Scope Term).set "x1" (.int 5) }) :=
  ⟨Lexer.tokens_of_inName (List.all_eq_true.1 (by decide)) (.single rfl) (by simp), rfl⟩

end Eval

end Offside
