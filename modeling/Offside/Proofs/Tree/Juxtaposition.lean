import Mathlib.Data.List.Chain
import Offside.Proofs.Tree.Shape
/-!
# Names and arguments side by side

A name and an argument side by side are a call, and several names in front of an argument are calls inside
of each other: `f g x` is `f` of `g` of `x` (`calls_by_juxtaposition`).

Two steps do this.  The first one puts the sign of a call between a name and what can begin an argument.  It
cuts a statement there and nowhere else (`CutAtCalls`), and since the sign of a call is neither a name nor
the beginning of an argument, there is nothing left to do afterwards.  In the second step the sign is read
like every other one.  It binds to the right, so of several the last is applied first, and an argument that
is a single token or stands in brackets has no sign that could take part of it away.
-/

namespace Offside

namespace Tree

open Precedence (OpTree)

/-! ## 1. Statements cut where calls are implied

Whether a call is implied depends on two tokens that stand side by side.  So the tokens fall into runs: inside
of a run no call is implied, and from one run to the next there is one.  What is made of the statement is
these runs, with a sign between each and the next. -/

/-- The tokens are cut where a call is implied, and only there. -/
structure CutAtCalls (ts : List Term) (runs : List (List Term)) : Prop where
  flatten : runs.flatten = ts
  nonempty : [] ∉ runs
  inside : ∀ run ∈ runs, run.IsChain fun t u => impliesCall t u = false
  between : runs.IsChain fun run run' =>
    ∃ t u, run.getLast? = some t ∧ run'.head? = some u ∧ impliesCall t u = true

/-- One more token at the front begins a run of its own or belongs to the first one, according to whether a
call is implied between it and the token after it. -/
theorem CutAtCalls.exists_cons {ts : List Term} {runs : List (List Term)} (h : CutAtCalls ts runs)
    (t : Term) :
    ∃ runs', CutAtCalls (t :: ts) runs' ∧
      [callSign].intercalate runs' = t :: (callBefore (some t) ts ++ [callSign].intercalate runs) := by
  obtain ⟨rfl, hnonempty, hinside, hbetween⟩ := h
  match runs with
  | [] => exact ⟨[[t]], ⟨rfl, by simp, by simp, by simp⟩, rfl⟩
  | [] :: _ => simp at hnonempty
  | (u :: run) :: runs =>
    cases hcall : impliesCall t u with
    | true =>
      refine ⟨[t] :: (u :: run) :: runs, ⟨rfl, by simpa using hnonempty, ?_, ?_⟩, ?_⟩
      · exact List.forall_mem_cons.2 ⟨.singleton t, hinside⟩
      · exact List.isChain_cons_cons.2 ⟨⟨t, u, rfl, rfl, hcall⟩, hbetween⟩
      · simp [callBefore, hcall, List.intercalate]
    | false =>
      obtain ⟨hrun, hruns⟩ := List.forall_mem_cons.1 hinside
      refine ⟨(t :: u :: run) :: runs, ⟨rfl, by simpa using hnonempty, ?_, ?_⟩, ?_⟩
      · exact List.forall_mem_cons.2 ⟨List.isChain_cons_cons.2 ⟨hcall, hrun⟩, hruns⟩
      · cases runs with
        | nil => exact .singleton _
        | cons run' runs =>
          rw [List.isChain_cons_cons] at hbetween ⊢
          rwa [List.getLast?_cons_cons]
      · cases runs <;> simp [callBefore, hcall, List.intercalate]

/-- **Signs are put where a statement is cut.**  By induction on the tokens, where the token before the first
one may imply a call as well. -/
theorem exists_cut_of_markCalls {prev : Option Term} {ts us : List Term} (h : markCalls prev ts = .ok us) :
    ∃ runs, CutAtCalls ts runs ∧ us = callBefore prev ts ++ [callSign].intercalate runs := by
  induction ts generalizing prev us with
  | nil =>
    obtain rfl := Except.ok.inj h
    exact ⟨[], ⟨rfl, by simp, by simp, by simp⟩, by cases prev <;> rfl⟩
  | cons t ts ih =>
    obtain ⟨-, rest, hrest, rfl⟩ := markCalls_cons_eq_ok_iff.1 h
    obtain ⟨runs, hcut, rfl⟩ := ih hrest
    obtain ⟨runs', hcut', heq⟩ := hcut.exists_cons t
    exact ⟨runs', hcut', by rw [heq]⟩

/-- Where signs have been put, no more are missing.  Between a name and an argument there is a sign now, and a
sign of a call is neither. -/
theorem unmarked_of_markCalls {prev : Option Term} {ts us : List Term} (h : markCalls prev ts = .ok us) :
    Unmarked prev us := by
  induction ts generalizing prev us with
  | nil =>
    obtain rfl := Except.ok.inj h
    rfl
  | cons t ts ih =>
    obtain ⟨htelling, rest, hrest, rfl⟩ := markCalls_cons_eq_ok_iff.1 h
    have hrest := ih hrest
    rw [callBefore_cons]
    split
    · have hsign : Unmarked none (callSign :: t :: rest) := .cons rfl (.cons rfl hrest)
      have hafter : AfterOperand (callSign :: t :: rest) := ⟨"@", rfl, by decide⟩
      exact hsign.after hafter prev
    · rename_i hno
      refine markCalls_cons_eq_ok_iff.2 ⟨htelling, rest, hrest, ?_⟩
      rw [callBefore_cons, if_neg hno]

/-- What becomes of a statement, which is not looked at if it has less than two tokens. -/
theorem insertCalls_eq_ok {s : Site} {kids : List Term} {t : Term}
    (h : insertCalls (.node (.phrase .expr) s kids) = .ok t) :
    ∃ s' us, t = .node (.phrase .expr) s' us ∧ markCalls none kids = .ok us ∧ insertCalls t = .ok t := by
  rw [insertCalls] at h
  split at h
  · rename_i hshort
    obtain rfl := Except.ok.inj h
    refine ⟨s, kids, rfl, ?_, if_pos hshort⟩
    cases kids with
    | nil => rfl
    | cons t ts =>
      cases ts with
      | nil => rfl
      | cons u us => exact absurd hshort (by simp)
  · obtain ⟨us, hus, h⟩ := ok_of_bind h
    obtain rfl := Except.ok.inj h
    have hagain : markCalls none us = .ok us := unmarked_of_markCalls hus
    refine ⟨none, us, rfl, hus, ?_⟩
    rw [Term.phrase, insertCalls, hagain]
    split <;> rfl

/-! ## 2. Arithmetic

In arithmetic there are no commas and no blocks, so of the passes only two have something to do: one puts in
the signs of calls and one reads the tokens.  What is read may contain calls, but none with a comma for an
argument, and it contains no functions. -/

/-- Numbers, names, the signs of arithmetic and of calls, and round brackets. -/
def isArithmetic : Term → Bool
  | .leaf (.word .int) _ _ | .leaf (.word .id) _ _ => true
  | .symbol s => s ∈ ["+", "-", "*", "^", "@", "(", ")"]
  | _ => false

theorem isNode_of_isArithmetic {t : Term} (h : isArithmetic t = true) : t.isNode = false := by
  cases t with
  | node => cases h
  | _ => rfl

theorem isArithmetic_of_markCalls {prev : Option Term} {ts us : List Term}
    (hmark : markCalls prev ts = .ok us) (h : ∀ t ∈ ts, isArithmetic t = true) :
    ∀ t ∈ us, isArithmetic t = true := by
  intro t ht
  rcases markCalls_mem hmark t ht with rfl | ht
  · rfl
  · exact h t ht

/-- There is no comma in arithmetic. -/
theorem isPhrase_comma_arithmetic (e : OpTree) (h : ∀ t ∈ e.yield, isArithmetic t = true) :
    e.term.isPhrase .comma = false := by
  cases e with
  | atom tok _ =>
    have htok := isNode_of_isArithmetic (h tok List.mem_cons_self)
    cases tok with
    | node => cases htok
    | _ => rfl
  | before o => cases o <;> rfl
  | enclosed b => cases b <;> rfl
  | between o left right =>
    cases o with
    | comma => cases h (.symbol ",") (by simp [OpTree.yield, Precedence.Joiner.sign])
    | _ => rfl
  | _ => rfl

/-- No pass changes a term of arithmetic. -/
theorem visits_arithmetic (p : Pass) (e : OpTree) (h : ∀ t ∈ e.yield, isArithmetic t = true) :
    Visits p.apply e.term e.term := by
  induction e with
  | atom tok htok => exact p.visits_token (isNode_of_isArithmetic (h tok List.mem_cons_self))
  | alone l => exact p.visits_token rfl
  | before o arg ih =>
    obtain ⟨hsign, harg⟩ := List.forall_mem_cons.1 h
    have hkids := visitsAll_one (ih harg)
    cases o with
    | minus => exact p.visits_node rfl hkids
    | plus => exact p.visits_node rfl hkids
    | _ => cases hsign
  | enclosed b inner ih =>
    obtain ⟨hsign, hinner⟩ := List.forall_mem_cons.1 h
    have hkids := visitsAll_one (ih (List.forall_mem_append.1 hinner).1)
    cases b with
    | round => exact p.visits_node rfl hkids
    | square => cases hsign
  | between o left right ihl ihr =>
    obtain ⟨hleft, hmore⟩ := List.forall_mem_append.1 h
    obtain ⟨hsign, hright⟩ := List.forall_mem_cons.1 hmore
    have hkids := visitsAll_two (ihl hleft) (ihr hright)
    cases o with
    | add => exact p.visits_node rfl hkids
    | sub => exact p.visits_node rfl hkids
    | mul => exact p.visits_node rfl hkids
    | pow => exact p.visits_node rfl hkids
    | call =>
      refine visits_node hkids ?_
      cases p with
      | bracketArguments => exact if_neg (Bool.eq_false_iff.1 (isPhrase_comma_arithmetic right hright))
      | _ => rfl
    | _ => cases hsign
  | bareCall left ih => cases h (.symbol "!") (by simp [OpTree.yield])
  | index left inner ihl ihi => cases h (.symbol "[") (by simp [OpTree.yield])
  | choice left condition other ihl ihc iho => cases h (.symbol "if") (by simp [OpTree.yield])

/-- There is nothing to visit inside of a statement of arithmetic, so a pass does to it what it does to a
single node. -/
theorem exists_of_visitsAll_statement (p : Pass) {s : Site} {ts us : List Term}
    (h : ∀ t ∈ ts, isArithmetic t = true) (hvisits : VisitsAll p.apply [.node (.phrase .expr) s ts] us) :
    ∃ u, us = [u] ∧ p.apply (.node (.phrase .expr) s ts) = .ok u := by
  obtain ⟨u, rest, rfl, hu, hrest⟩ := visitsAll_cons_iff.1 hvisits
  obtain rfl := Except.ok.inj hrest
  obtain ⟨ts', hts, happly⟩ := visits_node_iff.1 hu
  have hstay : ∀ t ∈ ts, t.isNode = false ∧ p.apply t = .ok t := fun t ht =>
    have htoken := isNode_of_isArithmetic (h t ht)
    ⟨htoken, p.apply_token htoken⟩
  obtain rfl := hts.eq_of_tokens hstay
  exact ⟨u, rfl, happly⟩

/-- What a statement of arithmetic is parsed to is the term of its tokens and of the implied calls. -/
theorem exists_tree_of_parse {ts : List Term} {t : Term} (h : ∀ u ∈ ts, isArithmetic u = true)
    (hparse : parse (.phrase .block [.phrase .expr ts]) = .ok (.phrase .block [t])) :
    ∃ e : OpTree, e.Respects ∧ markCalls none ts = .ok e.yield ∧ e.term = t := by
  obtain ⟨us, vs, ws, xs, ys, h₁, h₂, h₃, h₄, h₅, hys⟩ := exists_visits_of_parse hparse
  obtain ⟨u, rfl, hu⟩ := exists_of_visitsAll_statement .nameParameters h h₁
  obtain rfl := Except.ok.inj hu
  obtain ⟨v, rfl, hv⟩ := exists_of_visitsAll_statement .insertCalls h h₂
  obtain ⟨s, marked, rfl, hmarked, -⟩ := insertCalls_eq_ok hv
  have hall := isArithmetic_of_markCalls hmarked h
  obtain ⟨w, rfl, hw⟩ := exists_of_visitsAll_statement .precedence hall h₃
  obtain ⟨e, he, rfl, rfl⟩ := Precedence.read_sound hw
  -- the passes that are left have nothing to do
  obtain rfl := Except.ok.inj ((visitsAll_one (visits_arithmetic .nameParameters e hall)).symm.trans h₄)
  obtain rfl := Except.ok.inj ((visitsAll_one (visits_arithmetic .bracketArguments e hall)).symm.trans h₅)
  obtain rfl : t = e.term := by
    rw [Term.phrase, Term.phrase, Term.node.injEq] at hys
    exact (List.cons.inj hys.2.2).1
  exact ⟨e, he, hmarked, rfl⟩

/-! ## 3. Arguments

What stands in brackets is any arithmetic that can be parsed as a statement of its own.  Then its tokens, with
the signs of calls put in, are the yield of a tree that respects the powers, and so is what the brackets make
of it. -/

/-- The tokens of an argument, and what it is read as: a number, a name, or arithmetic in brackets. -/
inductive Argument : List Term → Term → Prop where
  | number (n : String) : Argument [.word .int n] (.word .int n)
  | name (x : String) : Argument [.word .id x] (.word .id x)
  | enclosed {ts : List Term} {t : Term} (h : ∀ u ∈ ts, isArithmetic u = true)
      (hparse : parse (.phrase .block [.phrase .expr ts]) = .ok (.phrase .block [t])) :
      Argument (.symbol "(" :: (ts ++ [.symbol ")"])) (.phrase .parens [t])

/-- The tree of an argument.  It has no left operand, so that no sign can take a part of it. -/
structure IsArgument (ts : List Term) (e : OpTree) : Prop where
  arithmetic : ∀ t ∈ ts, isArithmetic t = true
  begins : ∃ t rest, ts = t :: rest ∧ beginsArgument t = true
  marked : markCalls none ts = .ok e.yield
  respects : e.Respects
  spine : e.leftSpine = []

/-- No call is implied before a closing bracket. -/
theorem markCalls_append_closing {prev : Option Term} {ts us : List Term} (h : markCalls prev ts = .ok us) :
    markCalls prev (ts ++ [.symbol ")"]) = .ok (us ++ [.symbol ")"]) := by
  induction ts generalizing prev us with
  | nil =>
    obtain rfl := Except.ok.inj h
    have hrest : Unmarked none [.symbol ")"] := rfl
    have hafter : AfterOperand [.symbol ")"] := ⟨")", rfl, by decide⟩
    exact hrest.after hafter prev
  | cons t ts ih =>
    obtain ⟨htelling, rest, hrest, rfl⟩ := markCalls_cons_eq_ok_iff.1 h
    refine markCalls_cons_eq_ok_iff.2 ⟨htelling, _, ih hrest, ?_⟩
    rw [callBefore_cons, callBefore_cons, List.append_assoc, List.cons_append]

/-- Every argument has a tree.  Brackets around tokens change nothing about the calls that are implied between
these: no call is implied after an opening bracket nor before a closing one. -/
theorem Argument.exists_tree {ts : List Term} {x : Term} (h : Argument ts x) :
    ∃ e : OpTree, IsArgument ts e ∧ e.term = x := by
  cases h with
  | number n =>
    have htoken : ∀ t ∈ [Term.word .int n], isArithmetic t = true := List.forall_mem_singleton.2 rfl
    exact ⟨.atom (.word .int n) rfl, ⟨htoken, ⟨_, _, rfl, rfl⟩, rfl, trivial, rfl⟩, rfl⟩
  | name x =>
    have htoken : ∀ t ∈ [Term.word .id x], isArithmetic t = true := List.forall_mem_singleton.2 rfl
    exact ⟨.atom (.word .id x) rfl, ⟨htoken, ⟨_, _, rfl, rfl⟩, rfl, trivial, rfl⟩, rfl⟩
  | @enclosed ts t h hparse =>
    obtain ⟨e, he, hmarked, rfl⟩ := exists_tree_of_parse h hparse
    have hall : ∀ t ∈ .symbol "(" :: (ts ++ [.symbol ")"]), isArithmetic t = true :=
      List.forall_mem_cons.2 ⟨rfl, List.forall_mem_append.2 ⟨h, List.forall_mem_singleton.2 rfl⟩⟩
    have hopening : markCalls (some (.symbol "(")) ts = .ok e.yield := by
      rw [← hmarked]
      cases ts <;> rfl
    have hmarks : markCalls none (.symbol "(" :: (ts ++ [.symbol ")"])) =
        .ok (OpTree.enclosed .round e).yield :=
      markCalls_cons_eq_ok_iff.2 ⟨nofun, _, markCalls_append_closing hopening, rfl⟩
    exact ⟨.enclosed .round e, ⟨hall, ⟨_, _, rfl, rfl⟩, hmarks, ⟨Precedence.OpTree.above_zero e, he⟩, rfl⟩,
      rfl⟩

/-! ## 4. Names in front of an argument

The tree of the calls is given, so by the theorem on reading only two things are left to show: that it
respects the powers, and that its yield is what becomes of the tokens when signs are put in. -/

/-- The tree of calls inside of each other. -/
def callTree (names : List String) (e : OpTree) : OpTree :=
  names.foldr (fun x inner => .between .call (.atom (.word .id x) rfl) inner) e

/-- Calls inside of each other. -/
def callTerm (names : List String) (arg : Term) : Term :=
  names.foldr (fun x inner => .phrase .call [.word .id x, inner]) arg

theorem term_callTree (names : List String) (e : OpTree) :
    (callTree names e).term = callTerm names e.term := by
  induction names with
  | nil => rfl
  | cons x names ih => exact congrArg (fun inner => Term.phrase .call [.word .id x, inner]) ih

variable {arg : List Term} {e : OpTree}

/-- The tree respects the powers.  The left operand of each call is a name.  The right one is another call,
whose power is above the one with which a call reads on its right, or the argument, which has no left operand.
-/
theorem respects_callTree (he : IsArgument arg e) (names : List String) :
    (callTree names e).Respects ∧ (callTree names e).Above (Precedence.Joiner.rightPower .call) := by
  induction names with
  | nil => exact ⟨he.respects, Precedence.OpTree.above_of_leftSpine_nil he.spine⟩
  | cons x names ih =>
    refine ⟨⟨List.forall_mem_nil _, ih.2, trivial, ih.1⟩, List.forall_mem_cons.2 ⟨?_, List.forall_mem_nil _⟩⟩
    decide

/-- The signs of all these calls are put in. -/
theorem markCalls_names (he : IsArgument arg e) (names : List String) (prev : Option Term) :
    markCalls prev (names.map (.word .id) ++ arg) =
      .ok ((if prev.any (Term.isWord .id) then [callSign] else []) ++ (callTree names e).yield) := by
  induction names generalizing prev with
  | nil =>
    obtain ⟨t, ts, rfl, hbegins⟩ := he.begins
    obtain ⟨-, rest, hrest, hyield⟩ := markCalls_cons_eq_ok_iff.1 he.marked
    refine markCalls_cons_eq_ok_iff.2 ⟨fun _ => telling_of_beginsArgument hbegins, rest, hrest, ?_⟩
    rw [callBefore_cons, hbegins, Bool.and_true, callTree, List.foldr_nil, hyield]
    rfl
  | cons x names ih =>
    refine markCalls_cons_eq_ok_iff.2 ⟨fun _ => rfl, _, ih _, ?_⟩
    rw [callBefore_cons]
    simp [callTree, beginsArgument, Term.word, Term.isWord, OpTree.yield, callSign, Precedence.Joiner.sign]

/-- The passes in order: signs are put in, the tokens are read as the tree of the calls, and the passes after
that find nothing to do. -/
theorem parse_juxtaposed (he : IsArgument arg e) {names : List String} (hne : names ≠ []) :
    parse (.phrase .block [.phrase .expr (names.map (.word .id) ++ arg)]) =
      .ok (.phrase .block [callTerm names e.term]) := by
  have hmarked : markCalls none (names.map (.word .id) ++ arg) = .ok (callTree names e).yield :=
    markCalls_names he names none
  have hall : ∀ t ∈ names.map (Term.word .id) ++ arg, isArithmetic t = true := by
    refine List.forall_mem_append.2 ⟨fun t ht => ?_, he.arithmetic⟩
    obtain ⟨x, -, rfl⟩ := List.mem_map.1 ht
    rfl
  have hyield := isArithmetic_of_markCalls hmarked hall
  have htokens := ReadsAll.tokens fun t ht => isNode_of_isArithmetic (hall t ht)
  have hmarks := ReadsAll.tokens fun t ht => isNode_of_isArithmetic (hyield t ht)
  have hlength : ¬ (names.map (Term.word .id) ++ arg).length < 2 := by
    obtain ⟨t, rest, rfl, -⟩ := he.begins
    have hpos := List.length_pos_iff.2 hne
    simp only [List.length_append, List.length_map, List.length_cons]
    omega
  have hcalls : insertCalls (.phrase .expr (names.map (.word .id) ++ arg)) =
      .ok (.phrase .expr (callTree names e).yield) := by
    rw [Term.phrase, insertCalls, if_neg hlength, hmarked]
    rfl
  rw [← term_callTree]
  exact parse_of_visits (visitsAll_one (visits_node htokens.parameters rfl))
    (visitsAll_one (visits_node htokens.calls hcalls))
    (visitsAll_one (visits_node hmarks.powers (OpTree.read_yield (respects_callTree he names).1)))
    (visitsAll_one (visits_arithmetic .nameParameters _ hyield))
    (visitsAll_one (visits_arithmetic .bracketArguments _ hyield))

/-- **Names side by side are calls inside of each other.**  One name or more in front of an argument are read
as calls of which each is the argument of the one before.  Of every statement in which the signs of calls
can be put, what is made is that statement, cut where a call is implied, with one sign at each cut; and
doing so again changes nothing. -/
theorem calls_by_juxtaposition :
    (∀ (names : List String) (arg : List Term) (x : Term), names ≠ [] → Argument arg x →
      parse (.phrase .block [.phrase .expr (names.map (.word .id) ++ arg)]) =
        .ok (.phrase .block [callTerm names x])) ∧
    ∀ (s : Site) (kids : List Term) (t : Term), insertCalls (.node (.phrase .expr) s kids) = .ok t →
      (∃ s' runs, CutAtCalls kids runs ∧ t = .node (.phrase .expr) s' ([callSign].intercalate runs)) ∧
        insertCalls t = .ok t := by
  constructor
  · intro names arg x hne harg
    obtain ⟨e, he, rfl⟩ := harg.exists_tree
    exact parse_juxtaposed he hne
  · intro s kids t h
    obtain ⟨s', us, rfl, hus, hagain⟩ := insertCalls_eq_ok h
    obtain ⟨runs, hcut, rfl⟩ := exists_cut_of_markCalls hus
    exact ⟨⟨s', runs, hcut, rfl⟩, hagain⟩

/-- The statement `f g ( h 1 + x )`, in which the last call stands in brackets. -/
theorem calls_by_juxtaposition_nested :
    parse (.phrase .block [.phrase .expr [.word .id "f", .word .id "g", .symbol "(", .word .id "h",
        .word .int "1", .symbol "+", .word .id "x", .symbol ")"]]) =
      .ok (.phrase .block [.phrase .call [.word .id "f", .phrase .call [.word .id "g", .phrase .parens [
        .phrase .call [.word .id "h", .phrase .add [.word .int "1", .word .id "x"]]]]]]) ∧
    ∃ s runs, CutAtCalls [.word .id "f", .word .id "g", .symbol "(", .word .id "h", .word .int "1",
        .symbol "+", .word .id "x", .symbol ")"] runs ∧
      .phrase .expr [.word .id "f", callSign, .word .id "g", callSign, .symbol "(", .word .id "h", callSign,
        .word .int "1", .symbol "+", .word .id "x", .symbol ")"] =
      Term.node (.phrase .expr) s ([callSign].intercalate runs) := by
  have harg : Argument (.symbol "(" :: ([.word .id "h", .word .int "1", .symbol "+", .word .id "x"] ++
      [.symbol ")"])) (.phrase .parens [
        .phrase .call [.word .id "h", .phrase .add [.word .int "1", .word .id "x"]]]) :=
    .enclosed (by decide) rfl
  exact ⟨calls_by_juxtaposition.1 ["f", "g"] _ _ (by decide) harg,
    (calls_by_juxtaposition.2 none _ _ rfl).1⟩

end Tree

end Offside
