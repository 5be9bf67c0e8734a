import Offside.Proofs.Eval.Depth
import Offside.Proofs.Regex.Names
import Offside.Proofs.Scope.Lookup
/-!
# Matching a text against a regular expression

A match has a regular expression and a text for operands, and either may be written first.  The expression
is handed to the engine of the host.  If the engine refuses it, the match fails.  Otherwise the value is the
matched text, or whether there is a match if that is empty, and the names of the groups are bound
(`Answers`).

Nothing is assumed of the engine as far as values go: what is said about them holds whatever expressions
the engine can read and however it finds a match.  Evaluation never changes the engine
(`related_keepsEngine`), so it is the one of the world in which a term begins to be evaluated.  What the names
of groups are bound to depends on two things that every engine has to see to: no two groups have the same
name, and what they hold is part of the text (`Engine.Sound`).

Two things about matches are not what they are meant to be.

* The operands are put in order when the node is built, and then only what is written counts: a text literal
  on the left goes to the right.  But it is the value on the left that has to be an expression.  So a name, a
  call or anything else in parentheses that has a text for value is refused on the left, and only there
  (`match_operands`).
* The names of groups are bound to bare texts.  These are no values of the language: they are found under
  their names, but they cannot be printed, compared or filled in (`Bare`).  Each group that took part has
  its own text under its name, a part of what was matched against, the others have nothing, and no other
  name is touched (`match_binds_groups`).
-/

namespace Offside

namespace Eval

variable {n : Nat} {w w₁ u : World} {p subject : String} {m : Matcher} {f : Match}

/-! ## 1. The engine stays

The engine is asked in the world in which a match is made, and that is the world after the operands were
evaluated and written.  As evaluation never changes the engine, an expression is refused or accepted there as
it was at the start.  This is one more congruence: each of the few things that evaluation does to a world
keeps the engine. -/

section

variable {α β : Type}

/-- The computation leaves the engine as it is. -/
def KeepsEngine (x : Eval α) : Prop := ∀ w : World, (x.run w).2.engine = w.engine

/-- A row keeps the engine if its steps do. -/
theorem KeepsEngine.bind {x : Eval α} {f : α → Eval β} (hx : KeepsEngine x)
    (hf : ∀ a, KeepsEngine (f a)) : KeepsEngine (x >>= f) := by
  intro w
  have hw := hx w
  rw [run_bind]
  rcases hr : x.run w with ⟨r, w'⟩
  rw [hr] at hw
  cases r with
  | ok a => exact (hf a w').trans hw
  | error e => exact hw

theorem keepsEngine_lookup (name : Term) : KeepsEngine (lookup name) := by
  intro w
  cases name with
  | text s =>
    simp only [lookup, run_get_bind]
    cases w.scope.get? s with
    | some v => rfl
    | none => rfl
  | _ => rfl

/-- A command changes the shell, and a match changes nothing. -/
theorem congruence_keepsEngine : Congruence fun _ x _ => KeepsEngine x where
  pure _ _ := rfl
  throw _ _ := rfl
  bind hx hf := hx.bind hf
  lookup := keepsEngine_lookup
  update _ _ := rfl
  printLine _ _ := rfl
  runCommand words w := by rw [run_runCommand]
  findMatch pattern subject w := by rw [run_findMatch]
  inNewFrame hx w := hx { w with scope := w.scope.enter }

/-- **Evaluation leaves the engine as it is.** -/
theorem related_keepsEngine : ∀ n : Nat, Related (fun _ x _ => KeepsEngine x) (meaning n) (meaning n)
  | 0 => ⟨fun _ _ => rfl, fun _ _ => rfl⟩
  | n + 1 => congruence_keepsEngine.related_step (related_keepsEngine n)

theorem engine_of_eval {t : Term} {r : Except Error Term} (h : ((meaning n).eval t).run w = (r, u)) :
    u.engine = w.engine := by
  have hkeeps := (related_keepsEngine n).eval t w
  rwa [h] at hkeeps

theorem engine_of_text {t : Term} {r : Except Error String} (h : ((meaning n).text t).run w = (r, u)) :
    u.engine = w.engine := by
  have hkeeps := (related_keepsEngine n).text t w
  rwa [h] at hkeeps

end

/-! ## 2. What a match does

The three ways in which a match can come out (`Answers`): no match, a match of no length, and a match with a
text.  In the first case nothing is bound.  The other two bind all named groups that the engine tells of, also
those that took no part. -/

/-- A regular expression as it is written in a term. -/
def regExAt (site : Site) (p : String) : Term := .leaf (.datum .regEx) site (.text p)

/-- The world after a match. -/
def bindGroups (f : Match) (w : World) : World :=
  { w with scope := w.scope.update (groupBindings f) }

/-- The value of a match and the world that it leaves. -/
inductive Answers (m : Matcher) (subject : String) (w : World) : Term → World → Prop
  | fails (h : m subject.toList = none) : Answers m subject w (.bool false) w
  | empty {f : Match} (h : m subject.toList = some f) (hlength : f.length = 0) :
      Answers m subject w (.bool true) (bindGroups f w)
  | matched {f : Match} (h : m subject.toList = some f) (hlength : f.length ≠ 0) :
      Answers m subject w (.str (String.ofList (subject.toList.take f.length))) (bindGroups f w)

/-- An expression that the engine accepts always gives an answer. -/
theorem run_regMatch (hm : w.engine.compile p = .ok m) (subject : String) :
    ∃ x u, (regMatch (.text p) subject).run w = (.ok x, u) ∧ Answers m subject w x u := by
  have hfind : (findMatch p subject).run w = (.ok (m subject.toList), w) := by
    rw [run_findMatch, hm]
    rfl
  rw [regMatch, run_bind_of_ok hfind]
  cases hf : m subject.toList with
  | none => exact ⟨_, _, rfl, .fails hf⟩
  | some f =>
    dsimp only
    rw [run_modify_bind]
    by_cases hlength : f.length = 0
    · rw [if_pos hlength]
      exact ⟨_, _, rfl, .empty hf hlength⟩
    · rw [if_neg hlength]
      exact ⟨_, _, rfl, .matched hf hlength⟩

/-- An expression that the engine refuses gives the error that the refusal stands for. -/
theorem run_regMatch_of_refused {e : Refusal} (he : w.engine.compile p = .error e) (subject : String) :
    (regMatch (.text p) subject).run w = (.error e.error, w) := by
  have hfind : (findMatch p subject).run w = (.error e.error, w) := by
    rw [run_findMatch, he]
    rfl
  rw [regMatch, run_bind, hfind]

/-- Where there is a match, it binds the groups. -/
theorem Answers.eq_bindGroups {x : Term} (h : Answers m subject w x u)
    (hf : m subject.toList = some f) : u = bindGroups f w := by
  cases h with
  | fails h => cases hf.symm.trans h
  | empty h => rw [Option.some.inj (hf.symm.trans h)]
  | matched h => rw [Option.some.inj (hf.symm.trans h)]

/-! ## 3. The order of the operands

The node is built before it is evaluated, and the exchange of operands happens then, by what is written.
After that the left operand has to have an expression for value.  So with the expression on the left
everything goes well, and with it on the right everything depends on whether the exchange has taken place. -/

variable {e v : Term}

/-- With the expression on the left, the text of the other operand is matched. -/
theorem run_match_left (he : ((meaning n).eval e).run w = (.ok v, w₁)) (p : String) (site : Site) :
    ((meaning (n + 1)).eval (.action .regMatch [regExAt site p, e])).run w =
      ((meaning n).text v >>= regMatch (.text p)).run w₁ := by
  obtain ⟨m, rfl⟩ := pos_of_run_ok he
  have hleft : ((meaning (m + 1)).eval (regExAt site p)).run w = (.ok (regExAt site p), w) := rfl
  exact (run_bind_of_ok hleft _).trans (run_bind_of_ok he _)

/-- With a text on the left there is no match, though the expression stands on the right. -/
theorem run_match_right (hv : v.isTextLiteral = true) (he : ((meaning n).eval e).run w = (.ok v, w₁))
    (p : String) (site : Site) :
    ((meaning (n + 1)).eval (.action .regMatch [e, regExAt site p])).run w =
      (.error (.unsupported v "RegMatch"), w₁) := by
  obtain ⟨m, rfl⟩ := pos_of_run_ok he
  have hright : ((meaning (m + 1)).eval (regExAt site p)).run w₁ = (.ok (regExAt site p), w₁) := rfl
  refine (run_bind_of_ok he _).trans ((run_bind_of_ok hright _).trans ?_)
  unfold Term.isTextLiteral at hv
  split at hv
  · rfl
  · rfl
  · rfl
  · cases hv

/-- A match against the value of a term gives an answer. -/
theorem run_match_text (hm : w.engine.compile p = .ok m)
    (he : ((meaning n).eval e).run w = (.ok v, w₁)) {w₂ : World}
    (htext : ((meaning n).text v).run w₁ = (.ok subject, w₂)) (site : Site) :
    ∃ x u, ((meaning (n + 1)).eval (.action .regMatch [regExAt site p, e])).run w = (.ok x, u) ∧
      Answers m subject w₂ x u := by
  have hengine : w₂.engine = w.engine := (engine_of_text htext).trans (engine_of_eval he)
  obtain ⟨x, u, hrun, hanswers⟩ := run_regMatch (w := w₂) (hengine ▸ hm) subject
  refine ⟨x, u, ?_, hanswers⟩
  calc ((meaning (n + 1)).eval (.action .regMatch [regExAt site p, e])).run w
      = ((meaning n).text v >>= regMatch (.text p)).run w₁ := run_match_left he p site
    _ = (regMatch (.text p) subject).run w₂ := run_bind_of_ok htext _
    _ = (.ok x, u) := hrun

/-- A match with an expression that the engine refuses fails after the other operand was written. -/
theorem run_match_refused {err : Refusal} (herr : w.engine.compile p = .error err)
    (he : ((meaning n).eval e).run w = (.ok v, w₁)) {w₂ : World}
    (htext : ((meaning n).text v).run w₁ = (.ok subject, w₂)) (site : Site) :
    ((meaning (n + 1)).eval (.action .regMatch [regExAt site p, e])).run w = (.error err.error, w₂) := by
  have hengine : w₂.engine = w.engine := (engine_of_text htext).trans (engine_of_eval he)
  calc ((meaning (n + 1)).eval (.action .regMatch [regExAt site p, e])).run w
      = ((meaning n).text v >>= regMatch (.text p)).run w₁ := run_match_left he p site
    _ = (regMatch (.text p) subject).run w₂ := run_bind_of_ok htext _
    _ = (.error err.error, w₂) := run_regMatch_of_refused (hengine ▸ herr) subject

/-- **The order of the operands.**  Let a term have a text for value.  With the expression on the left it is
matched, whatever the engine makes of the expression.  With the term on the left the same happens if it is a
text literal; otherwise its value is refused, after it was evaluated. -/
theorem match_operands (hv : v.isTextLiteral = true) (he : ((meaning n).eval e).run w = (.ok v, w₁))
    (p : String) (site : Site) :
    ∃ a b, (NodeKind.action .regMatch).build [regExAt site p, e] = .ok a ∧
      (NodeKind.action .regMatch).build [e, regExAt site p] = .ok b ∧
      (∀ subject w₂, ((meaning n).text v).run w₁ = (.ok subject, w₂) →
        (∀ m, w.engine.compile p = .ok m →
          ∃ x u, ((meaning (n + 1)).eval a).run w = (.ok x, u) ∧ Answers m subject w₂ x u) ∧
        (∀ err, w.engine.compile p = .error err →
          ((meaning (n + 1)).eval a).run w = (.error err.error, w₂))) ∧
      ((meaning (n + 1)).eval b).run w =
        if e.isTextLiteral then ((meaning (n + 1)).eval a).run w
        else (.error (.unsupported v "RegMatch"), w₁) := by
  refine ⟨_, _, rfl, rfl, fun subject w₂ htext => ⟨?_, ?_⟩, ?_⟩
  · intro m hm
    exact run_match_text hm he htext site
  · intro err herr
    exact run_match_refused herr he htext site
  · by_cases hlit : e.isTextLiteral = true
    · rw [if_pos hlit, if_pos hlit]
      rfl
    · rw [if_neg hlit, if_neg hlit]
      exact run_match_right hv he p site

/-- A world in which a name stands for a text. -/
def oneText : World := { scope := ({} : Scope Term).set "s" (.str "abc") }

/-- A name in parentheses is matched on the right and refused on the left. -/
theorem match_operands_parens :
    ∃ a b, (NodeKind.action .regMatch).build
        [regExAt none "a", .action .parens [.datum .var (.text "s")]] = .ok a ∧
      (NodeKind.action .regMatch).build
        [.action .parens [.datum .var (.text "s")], regExAt none "a"] = .ok b ∧
      (∃ m x u, oneText.engine.compile "a" = .ok m ∧ ((meaning 3).eval a).run oneText = (.ok x, u) ∧
        Answers m "abc" oneText x u) ∧
      ((meaning 3).eval b).run oneText = (.error (.unsupported (.str "abc") "RegMatch"), oneText) := by
  have he : ((meaning 2).eval (.action .parens [.datum .var (.text "s")])).run oneText =
      (.ok (.str "abc"), oneText) := rfl
  obtain ⟨a, b, ha, hb, hanswers, hrefused⟩ := match_operands rfl he "a" none
  obtain ⟨x, u, hx⟩ := (hanswers "abc" oneText rfl).1 _ rfl
  exact ⟨a, b, ha, hb, ⟨_, x, u, rfl, hx⟩, hrefused⟩

/-- The same name and the same expression in both orders. -/
theorem match_name_refused :
    (NodeKind.action .regMatch).build [.datum .var (.text "s"), regExAt none "a"] =
      .ok (.action .regMatch [.datum .var (.text "s"), regExAt none "a"]) ∧
    ((meaning 2).eval (.action .regMatch [.datum .var (.text "s"), regExAt none "a"])).run oneText =
      (.error (.unsupported (.str "abc") "RegMatch"), oneText) ∧
    ((meaning 2).eval (.action .regMatch [regExAt none "a", .datum .var (.text "s")])).run oneText =
      (.ok (.str "a"), oneText) :=
  ⟨rfl, rfl, rfl⟩

/-! ## 4. Texts -/

/-- A text without placeholders stands for itself, up to escapes. -/
theorem run_text_plain {s : String} (h : Text.placeholders s.toList = []) (n : Nat) (w : World) :
    ((meaning (n + 1)).text (.str s)).run w = (.ok (String.ofList (Text.unescape s.toList)), w) := by
  show (interpolate (meaning n) s).run w = _
  rw [interpolate, h]
  rfl

/-- A text whose first placeholder has no text has none itself. -/
theorem run_text_of_placeholder {s g : String} {ns : List (List Char)} {x : Term} {err : Error}
    (h : Text.placeholders s.toList = g.toList :: ns) (hg : w.scope.get? g = some x)
    (hx : ((meaning n).text x).run w = (.error err, w)) :
    ((meaning (n + 1)).text (.str s)).run w = (.error err, w) := by
  have hfill : (fillAll (meaning n) (g.toList :: ns) s.toList).run w = (.error err, w) := by
    rw [fillAll, String.ofList_toList, run_bind_of_ok (run_lookup hg), run_bind, hx]
  show (interpolate (meaning n) s).run w = _
  rw [interpolate, h, run_bind, hfill]

/-! ## 5. Named groups

To bind groups is to update the innermost frame with bare texts.  No two groups have the same name, so each
name is found with the text of its own group.  A bare text is a value only in so far as a name can stand for
it (`Bare`): every further use fails, with an error that depends on the use. -/

/-- The name stands for a bare text: it has a value, but not one that can be printed, compared with a text
of the language or filled in. -/
structure Bare (w : World) (g t : String) : Prop where
  value : ∀ n site,
    ((meaning (n + 1)).eval (.leaf (.datum .var) site (.text g))).run w = (.ok (.text t), w)
  print : ∀ n site,
    ((meaning (n + 2)).eval (.action .print [.leaf (.datum .var) site (.text g)])).run w =
      (.error (.lacks .text "to_string"), w)
  compareRight : ∀ n site s,
    ((meaning (n + 2)).eval (.action .eq [.leaf (.datum .var) site (.text g), .str s])).run w =
      (.error (.mixedOperands (.action .eq) (.text t) (.str s)), w)
  compareLeft : ∀ n site s,
    ((meaning (n + 2)).eval (.action .eq [.str s, .leaf (.datum .var) site (.text g)])).run w =
      (.error (.mixedOperands (.action .eq) (.str s) (.text t)), w)
  fill : ∀ n s ns, Text.placeholders s.toList = g.toList :: ns →
    ((meaning (n + 2)).text (.str s)).run w = (.error (.lacks .text "to_string"), w)

theorem bare_of_get? {g t : String} (h : w.scope.get? g = some (.text t)) : Bare w g t where
  value n site := run_var h n site
  print n site := run_bind_of_ok (run_var h n site) _
  compareRight n site _ := run_bind_of_ok (run_var h n site) _
  compareLeft n site _ := run_bind_of_ok (run_var h n site) _
  fill _ _ _ hs := run_text_of_placeholder hs h rfl

theorem names_groupBindings (f : Match) : (groupBindings f).map (·.1) = f.named.map (·.1) := by
  rw [groupBindings, List.map_map]
  rfl

/-- After a match every name of a group stands for what the group holds. -/
theorem get?_bindGroups (hnames : (f.named.map (·.1)).Nodup) (w : World) {g : String}
    {held : Option (List Char)} (hg : (g, held) ∈ f.named) :
    (bindGroups f w).scope.get? g = some (held.elim .nothing fun cs => .text (String.ofList cs)) := by
  have hnodup : ((groupBindings f).map (·.1)).Nodup := names_groupBindings f ▸ hnames
  exact w.scope.get?_update_of_mem hnodup (List.mem_map_of_mem hg)

theorem get?_bindGroups_of_not_mem (w : World) {y : String} (hy : y ∉ f.named.map (·.1)) :
    (bindGroups f w).scope.get? y = w.scope.get? y :=
  w.scope.get?_update_of_not_mem (names_groupBindings f ▸ hy)

/-- A group that took part is bound to the bare text that it holds. -/
theorem bare_bindGroups (hnames : (f.named.map (·.1)).Nodup) (w : World) {g : String} {cs : List Char}
    (hg : (g, some cs) ∈ f.named) : Bare (bindGroups f w) g (String.ofList cs) :=
  bare_of_get? (get?_bindGroups hnames w hg)

/-- A match against a text literal, where there is one, binds the groups. -/
theorem run_match_str {s : String} (hm : w.engine.compile p = .ok m)
    (hs : ((meaning n).text (.str s)).run w = (.ok subject, w₁)) (hf : m subject.toList = some f)
    (site : Site) :
    ∃ x, ((meaning (n + 1)).eval (.action .regMatch [regExAt site p, .str s])).run w =
      (.ok x, bindGroups f w₁) ∧ Answers m subject w₁ x (bindGroups f w₁) := by
  obtain ⟨k, rfl⟩ := pos_of_run_text_ok hs
  have hvalue : ((meaning (k + 1)).eval (.str s)).run w = (.ok (.str s), w) := rfl
  obtain ⟨x, u, hrun, hanswers⟩ := run_match_text hm hvalue hs site
  obtain rfl := hanswers.eq_bindGroups hf
  exact ⟨x, hrun, hanswers⟩

/-- **What a match binds.**  After a match against a text literal each named group that took part is found
under its name as a bare text, a part of the text that was matched against.  A group that took no part is
bound to nothing.  Every other name, the frames further out, what was printed and what is outside are as they
were after the placeholders of the literal were filled in. -/
theorem match_binds_groups {s : String} (hsound : w.engine.Sound) (hm : w.engine.compile p = .ok m)
    (hs : ((meaning n).text (.str s)).run w = (.ok subject, w₁)) (hf : m subject.toList = some f)
    (site : Site) :
    ∃ a x u, (NodeKind.action .regMatch).build [regExAt site p, .str s] = .ok a ∧
      ((meaning (n + 1)).eval a).run w = (.ok x, u) ∧ Answers m subject w₁ x u ∧
      (∀ g cs, (g, some cs) ∈ f.named → cs <:+: subject.toList ∧ Bare u g (String.ofList cs)) ∧
      (∀ g, (g, none) ∈ f.named → u.scope.get? g = some .nothing) ∧
      (∀ y, y ∉ f.named.map (·.1) → u.scope.get? y = w₁.scope.get? y) ∧
      u.scope.outer = w₁.scope.outer ∧ u.out = w₁.out ∧ u.toHost = w₁.toHost ∧
      (Text.placeholders s.toList = [] → w₁ = w) := by
  have hfits : f.Fits subject.toList := hsound p m hm _ f hf
  obtain ⟨x, hrun, hanswers⟩ := run_match_str hm hs hf site
  refine ⟨_, x, bindGroups f w₁, rfl, hrun, hanswers, ?_, ?_, ?_, rfl, rfl, rfl, ?_⟩
  · intro g cs hg
    exact ⟨hfits.isInfix hg, bare_bindGroups hfits.names_nodup w₁ hg⟩
  · intro g hg
    exact get?_bindGroups hfits.names_nodup w₁ hg
  · intro y hy
    exact get?_bindGroups_of_not_mem w₁ hy
  · intro hplain
    obtain ⟨k, rfl⟩ := pos_of_run_text_ok hs
    obtain ⟨-, hworld⟩ := Prod.mk.inj ((run_text_plain hplain k w).symm.trans hs)
    exact hworld.symm

/-- An expression with two named groups, of which one takes part. -/
theorem exists_groups (hw : w.engine = .standard) :
    ∃ m f, w.engine.compile "(?P<g>a+)|(?P<h>b)" = .ok m ∧ m "aab".toList = some f ∧
      f.named = [("g", some "aa".toList), ("h", none)] := by
  have h : ((Pattern.read? "(?P<g>a+)|(?P<h>b)".toList).bind fun q =>
        (q.matchStart? "aab".toList).map fun f => f.named q) =
      some [("g", some "aa".toList), ("h", none)] := by decide +kernel
  obtain ⟨q, hq, h⟩ := Option.bind_eq_some_iff.1 h
  obtain ⟨found, hfound, hnamed⟩ := Option.map_eq_some_iff.1 h
  rw [hw]
  exact ⟨q.matcher, _, Engine.compile_standard hq, Option.map_eq_some_iff.2 ⟨found, hfound, rfl⟩, hnamed⟩

theorem match_binds_groups_alternatives :
    ∃ a x u, (NodeKind.action .regMatch).build [regExAt none "(?P<g>a+)|(?P<h>b)", .str "aab"] = .ok a ∧
      ((meaning 2).eval a).run oneText = (.ok x, u) ∧ Bare u "g" "aa" ∧
      u.scope.get? "h" = some .nothing ∧ u.scope.get? "s" = some (.str "abc") := by
  obtain ⟨m, f, hm, hf, hnamed⟩ := exists_groups (w := oneText) rfl
  have hs : ((meaning 1).text (.str "aab")).run oneText = (.ok "aab", oneText) := rfl
  obtain ⟨a, x, u, ha, hrun, -, hbare, hnothing, hothers, -⟩ :=
    match_binds_groups Engine.sound_standard hm hs hf none
  rw [hnamed] at hbare hnothing hothers
  refine ⟨a, x, u, ha, hrun, ?_, ?_, ?_⟩
  · exact (hbare "g" "aa".toList (by decide)).2
  · exact hnothing "h" (by decide)
  · exact hothers "s" (by decide)

/-- What a group holds is there after the match, but it is no text of the language. -/
theorem match_group_unprintable :
    ∃ x u, ((meaning 2).eval (.action .regMatch [regExAt none "(?P<g>a+)|(?P<h>b)", .str "aab"])).run {} =
        (.ok x, u) ∧
      ((meaning 1).eval (.datum .var (.text "g"))).run u = (.ok (.text "aa"), u) ∧
      ((meaning 2).eval (.action .print [.datum .var (.text "g")])).run u =
        (.error (.lacks .text "to_string"), u) := by
  obtain ⟨m, f, hm, hf, hnamed⟩ := exists_groups (w := {}) rfl
  have hs : ((meaning 1).text (.str "aab")).run {} = (.ok "aab", {}) := rfl
  obtain ⟨x, hrun, -⟩ := run_match_str hm hs hf none
  have hg : ("g", some "aa".toList) ∈ f.named := by simp [hnamed]
  have hnames : (f.named.map (·.1)).Nodup := by
    rw [hnamed]
    decide
  have hbare := bare_bindGroups hnames {} hg
  exact ⟨x, _, hrun, hbare.value 0 none, hbare.print 0 none⟩

end Eval

end Offside
