import Offside.Proofs.Eval.Calls
import Offside.Proofs.Eval.Select
import Offside.Proofs.Program.Outcome
/-!
# A function that calls itself

A function has no scope of its own to come back to.  When it calls itself, it finds itself through the
frames of all the calls that are still open, and each of them binds the same parameters anew.  The
arguments of the inner call are evaluated before that, in the frame of the outer one.

The function here counts: `inc val, howmuch` adds 1 to `val` as often as `howmuch` says.  A call takes four
levels of depth until it calls itself, namely itself, the block that is its body, the match and the arm.
So the depth decides how far it can count, and nothing else does (`run_counting_call`): in particular it
does not matter what the frames of the callers bind the two parameters to.
-/

namespace Offside

namespace Eval

namespace Counting

/-! ## 1. The function

The terms of the function, as they are after lowering.  It is a function of two parameters, and its body is a
block with one match. -/

def val : Term := .datum .var (.text "val")

def howmuch : Term := .datum .var (.text "howmuch")

def inc : Term := .datum .var (.text "inc")

/-- `howmuch > 0` -/
def condition : Term := .action .more [howmuch, .int 0]

/-- `(val + 1), howmuch - 1` -/
def arguments : List Term :=
  [.action .parens [.action .add [val, .int 1]], .action .sub [howmuch, .int 1]]

/-- The arm that counts on, and the one that ends it. -/
def body : Term := .action .block [selectOf [⟨condition, callOf inc arguments⟩] val]

/-- The frame of a call. -/
def frame (a n : Int) : List (String × Term) := [("val", .int a), ("howmuch", .int n)]

def function : Term := functionOf ["val", "howmuch"] body

theorem isFunction_function : IsFunction ["val", "howmuch"] body function := isFunction_functionOf _ _

/-! ## 2. One call

The steps of a call, with the depth that each of them takes.  The frame of the caller is never looked at for
the parameters, since the frame of the call binds both, and the function itself is found behind that frame.
Where the depth does not reach, one of the steps fails for want of it, and whichever it is, the error is the
same. -/

/-- The world inside of a call. -/
def calling (w : World) (a n : Int) : World :=
  { w with scope := ⟨⟨frame a n⟩, w.scope.top :: w.scope.outer⟩ }

section Call

variable {w : World} {a n : Int}

/-- Inside of a call the function is found where the caller finds it. -/
theorem calling_inc (w : World) (a n : Int) :
    (calling w a n).scope.get? "inc" = w.scope.get? "inc" := rfl

theorem eval_body (m : Nat) :
    (meaning (m + 3)).eval body = firstTrue (meaning m) [⟨condition, callOf inc arguments⟩] val := by
  have hblock : (meaning (m + 3)).eval body =
      (meaning (m + 2)).eval (selectOf [⟨condition, callOf inc arguments⟩] val) >>= pure := rfl
  rw [hblock, bind_pure, eval_selectOf]

theorem run_condition (k : Nat) (w : World) (a n : Int) :
    ((meaning (k + 2)).eval condition).run (calling w a n) =
      (.ok (.bool (0 < n)), calling w a n) := rfl

theorem evaluate_arguments (k : Nat) (w : World) (a n : Int) :
    Evaluate (meaning (k + 3)) arguments (calling w a n) [.int (a + 1), .int (n - 1)]
      (calling w a n) :=
  .cons rfl (.cons rfl (.nil _))

theorem run_inc (k : Nat) (hinc : w.scope.get? "inc" = some function) :
    ((meaning (k + 1)).eval inc).run w = (.ok function, w) :=
  run_var hinc k none

/-- A body that leaves its frame as it is leaves that of the caller as it is. -/
theorem inFrame_of_run_body {d : Nat} {x : Except Error Term}
    (h : ((meaning d).eval body).run (calling w a n) = (x, calling w a n)) :
    inFrame d (frame a n) body w = (x, w) := by
  have hframe : inFrame d (frame a n) body w =
      ((((meaning d).eval body).run (calling w a n)).1,
        { (((meaning d).eval body).run (calling w a n)).2 with scope := w.scope }) := rfl
  rw [hframe, h]
  rfl

/-- A call with two numbers runs the body in a frame that binds them. -/
theorem run_call_two {d : Nat} {es : List Term} (hinc : w.scope.get? "inc" = some function)
    (hlen : 2 = es.length) (hes : Evaluate (meaning d) es w [.int a, .int n] w) :
    ((meaning (d + 1)).eval (.action .call [inc, .action .array es])).run w =
      inFrame d (frame a n) body w := by
  have hd : ∃ k, d = k + 1 := by
    cases hes with
    | cons he _ => exact pos_of_run_ok he
  obtain ⟨k, rfl⟩ := hd
  have hne : es ≠ [] := by
    rintro rfl
    cases hlen
  have hvs : ∀ v ∈ [Term.int a, .int n], IsValue v :=
    List.forall_mem_cons.2 ⟨.int none a, List.forall_mem_singleton.2 (.int none n)⟩
  exact run_call_list isFunction_function (by decide) hlen hne (run_inc k hinc) hes hvs

/-- The function asks whether to count on, which needs five levels: one each for the block, the match and the
arm, and two for the condition.  The answer depends on its own frame only. -/
theorem run_body_cons (k : Nat) (w : World) (a n : Int) :
    ((meaning (k + 5)).eval body).run (calling w a n) =
      if 0 < n then ((meaning (k + 2)).eval (callOf inc arguments)).run (calling w a n)
      else (.ok (.int a), calling w a n) := by
  rw [eval_body, run_firstTrue_cons (run_condition k w a n) rfl]
  by_cases hn : 0 < n
  · rw [if_pos (decide_eq_true hn), if_pos hn]
  · rw [if_neg (by simpa using hn), if_neg hn]
    rfl

theorem run_body_short {d : Nat} (hd : d < 5) (w : World) (a n : Int) :
    ((meaning d).eval body).run (calling w a n) = (.error .recursion, calling w a n) := by
  rcases d with _ | _ | _ | _ | _ | d
  iterate 5 rfl
  omega

/-- The function is found, but there is no depth left to add 1 to its parameter.  The arguments of the inner
call are evaluated first, so it fails there and not in the inner call. -/
theorem run_again_short {k : Nat} (hk : k < 2) (hinc : w.scope.get? "inc" = some function) :
    ((meaning (k + 2)).eval (callOf inc arguments)).run (calling w a n) =
      (.error .recursion, calling w a n) := by
  have hfound := run_inc k ((calling_inc w a n).trans hinc)
  have hcall : (meaning (k + 2)).eval (callOf inc arguments) =
      operands (meaning (k + 1)) inc (.action .array arguments) >>= fun p =>
        runBody (meaning (k + 1)) p.1 p.2 := eval_call (k + 1) inc _
  have hoperands : (operands (meaning (k + 1)) inc (.action .array arguments)).run (calling w a n) =
      (.error .recursion, calling w a n) := by
    rw [operands, run_bind_of_ok hfound]
    rcases k with _ | _ | k
    iterate 2 rfl
    omega
  rw [hcall, run_bind, hoperands]

end Call

/-! ## 3. All calls

A call that counts on runs the body of another call in a frame inside of its own, so the world in which the
body is run changes with each call.  What stays is that the function is found, and this is all that the
induction needs to know about the world. -/

/-- The induction is on how often is counted on; the frames of the callers are arbitrary, and the ones that
the induction adds are among them. -/
theorem run_body (n : Nat) : ∀ (d : Nat) (a : Int) (w : World), w.scope.get? "inc" = some function →
    ((meaning d).eval body).run (calling w a n) =
      (if 4 * n + 5 ≤ d then .ok (.int (a + n)) else .error .recursion, calling w a n) := by
  induction n with
  | zero =>
    intro d a w _
    by_cases hd : d < 5
    · rw [run_body_short hd, if_neg (by omega)]
    · obtain ⟨k, rfl⟩ : ∃ k, d = k + 5 := ⟨d - 5, by omega⟩
      rw [run_body_cons, if_neg (by decide), if_pos (by omega)]
      simp
  | succ n ih =>
    intro d a w hinc
    by_cases hd : d < 5
    · rw [run_body_short hd, if_neg (by omega)]
    obtain ⟨k, rfl⟩ : ∃ k, d = k + 5 := ⟨d - 5, by omega⟩
    rw [run_body_cons, if_pos (by omega)]
    by_cases hk : k < 2
    · rw [run_again_short hk hinc, if_neg (by omega)]
    obtain ⟨j, rfl⟩ : ∃ j, k = j + 2 := ⟨k - 2, by omega⟩
    have hargs := evaluate_arguments j w a (n + 1 : Nat)
    have hnext : ((n + 1 : Nat) : Int) - 1 = n := by omega
    have hsum : a + 1 + (n : Int) = a + (n + 1 : Nat) := by omega
    rw [hnext] at hargs
    have hfound := (calling_inc w a (n + 1 : Nat)).trans hinc
    have hcall := run_call_two hfound rfl hargs
    have hbody := ih (j + 3) (a + 1) (calling w a (n + 1 : Nat)) hfound
    have hdepth : 4 * n + 5 ≤ j + 3 ↔ 4 * (n + 1) + 5 ≤ j + 2 + 5 := by omega
    rw [hsum] at hbody
    simp only [hdepth] at hbody
    exact hcall.trans (inFrame_of_run_body hbody)

/-! ## 4. The source

The text is followed through all stages, so that what is counted with is what the source says. -/

/-- The function within a program, as it is written. -/
def lines : List String :=
  ["main = (argc, argv) ->",
    "  inc = (val, howmuch) ->",
    "    match",
    "      howmuch > 0  => inc (val + 1), howmuch - 1",
    "      _            => val"]

def source : String := String.ofList (Lexer.joinLines true (lines.map String.toList))

/-- The program binds the function to its name. -/
def program : Term :=
  .action .block [.action .assign [.datum .var (.text "main"),
    functionOf ["argc", "argv"] (.action .block [.action .assign [inc, function]])]]

/-- The tokens of a statement that defines a function. -/
def heading (f x y : String) (body : List Term) : List Term :=
  .word .id f :: .symbol "=" :: .symbol "(" :: .word .id x :: .symbol "," :: .word .id y :: .symbol ")" ::
    .symbol "->" :: body

/-- The tokens of the first arm.  There is no sign of a call in the source. -/
def arm (sign : List Term) : List Term :=
  .word .id "howmuch" :: .symbol ">" :: .word .int "0" :: .symbol "=>" :: .word .id "inc" ::
    sign.append [.symbol "(", .word .id "val", .symbol "+", .word .int "1", .symbol ")", .symbol ",",
      .word .id "howmuch", .symbol "-", .word .int "1"]

def lastArm : List Term := [.symbol "_", .symbol "=>", .word .id "val"]

def sourceTokens : List Term :=
  List.flatten [.dent 0 :: heading "main" "argc" "argv" [], .dent 2 :: heading "inc" "val" "howmuch" [],
    [.dent 4, .symbol "match"], .dent 6 :: arm [], .dent 6 :: lastArm]

def statements (sign : List Term) : Term :=
  .phrase .block [.phrase .expr (heading "main" "argc" "argv" [.phrase .block [
    .phrase .expr (heading "inc" "val" "howmuch" [.phrase .block [
      .phrase .expr [.symbol "match", .phrase .block [.phrase .expr (arm sign),
        .phrase .expr lastArm]]]])]])]

/-- The syntax tree, up to what stands for the names of parameters and for arguments. -/
def tree (names : List Term → Term) (args : Term → Term) : Term :=
  .phrase .block [.phrase .assign [.word .id "main", .phrase .lambda [
    names [.word .id "argc", .word .id "argv"], .phrase .block [
      .phrase .assign [.word .id "inc", .phrase .lambda [
        names [.word .id "val", .word .id "howmuch"], .phrase .block [.phrase .select [.phrase .block [
          .phrase .ifThen [.phrase .more [.word .id "howmuch", .word .int "0"],
            .phrase .call [.word .id "inc", args (.phrase .comma [
              .phrase .parens [.phrase .add [.word .id "val", .word .int "1"]],
              .phrase .sub [.word .id "howmuch", .word .int "1"]])]],
          .phrase .ifThen [.word .alwaysTrue "_", .word .id "val"]]]]]]]]]]

/-- The lines with their tokens. -/
def rows : List (List Char × List Term) :=
  [("main = (argc, argv) ->".toList, heading "main" "argc" "argv" []),
    ("  inc = (val, howmuch) ->".toList, heading "inc" "val" "howmuch" []),
    ("    match".toList, [.symbol "match"]),
    ("      howmuch > 0  => inc (val + 1), howmuch - 1".toList, arm []),
    ("      _            => val".toList, lastArm)]

theorem cuts_rows : ∀ x ∈ rows, Lexer.Cuts x.1 x.2 [] ∧ x.2 ≠ [] := by
  simp only [rows, List.forall_mem_cons]
  refine ⟨⟨Program.cuts_head, by simp [heading]⟩, ⟨?_, by simp [heading]⟩, ⟨.single rfl, by simp⟩,
    ⟨?_, by simp [arm]⟩, ⟨.step rfl (.step rfl (.single rfl)), by simp [lastArm]⟩, List.forall_mem_nil _⟩
  · exact .step rfl (.step rfl (.step rfl (.step rfl (.step rfl (.step rfl (.step rfl (.single rfl)))))))
  · exact .step rfl (.step rfl (.step rfl (.step rfl (.step rfl (.step rfl (.step rfl (.step rfl (.step rfl
      (.step rfl (.step rfl (.step rfl (.step rfl (.single rfl)))))))))))))

/-- The text is cut line by line, and the tokens of each line are found one after the other. -/
theorem tokens_source : Lexer.tokens source = .ok sourceTokens := by
  have hall : (lines.map String.toList).all
      (fun l => l.all (fun c => !Text.isLineBreak c) && !l.isEmpty) = true := by decide
  have hproper : ∀ l ∈ lines.map String.toList, Lexer.Unbroken l ∧ l ≠ [] := by
    simpa [Lexer.Unbroken] using hall
  have hlines : Text.lines source.toList = rows.map (·.1) := by
    rw [source, String.toList_ofList, Lexer.lines_joinLines true hproper]
    rfl
  exact (Lexer.tokens_of_cuts hlines cuts_rows).trans rfl

/-- The passes one by one. -/
theorem parse_statements :
    Tree.parse (statements []) = .ok (tree (.phrase .list) fun args => .phrase .brackets [args]) := by
  have hnone : Tree.Pass.nameParameters.run (statements []) = .ok (statements []) := by rfl
  have hcalls : Tree.Pass.insertCalls.run (statements []) = .ok (statements [.symbol "@"]) := by rfl
  have hread : Tree.Pass.precedence.run (statements [.symbol "@"]) =
      .ok (tree (fun names => .phrase .parens [.phrase .comma names]) id) := by rfl
  have hnames : Tree.Pass.nameParameters.run (tree (fun names => .phrase .parens [.phrase .comma names]) id) =
      .ok (tree (.phrase .list) id) := by rfl
  have hargs : Tree.Pass.bracketArguments.run (tree (.phrase .list) id) =
      .ok (tree (.phrase .list) fun args => .phrase .brackets [args]) := by rfl
  simp only [Tree.parse, Tree.passes, List.foldlM_cons, List.foldlM_nil, hnone, hcalls, hread, hnames, hargs,
    bind, Except.bind]
  rfl

/-- The steps from a text to what is run. -/
theorem lower_of_tokens {text : String} {ts : List Term} {t : Term}
    (htokens : Lexer.tokens text = .ok ts) (hparse : Tree.parse (Layout.tree ts) = .ok t) :
    (Program.parse text >>= Tree.lower) = Tree.lower t := by
  have hsource : Program.parse text = Tree.parse (Layout.tree ts) := by
    rw [Program.parse, htokens]
    rfl
  rw [hsource, hparse]
  rfl

theorem lower_source : (Program.parse source >>= Tree.lower) = .ok program := by
  have hlaid : Layout.tree sourceTokens = statements [] := by rfl
  rw [lower_of_tokens tokens_source (hlaid ▸ parse_statements)]
  rfl

/-- **Counting by recursion.**  The source is read as a program that binds the function to its name.
Wherever that name is bound to it, whatever else the frames of the callers bind, a call with `a` and `n`
comes to `a + n` and leaves the world as it was, if there are six levels of depth and four more for each
time that it calls itself.  With less depth the call is cut short, and leaves the world as it was too. -/
theorem run_counting_call :
    (Program.parse source >>= Tree.lower) = .ok program ∧
    ∀ (a : Int) (n d : Nat) (w : World), w.scope.get? "inc" = some function →
      ((meaning d).eval (callOf inc [.int a, .int n])).run w =
        (if 4 * n + 6 ≤ d then .ok (.int (a + n)) else .error .recursion, w) := by
  refine ⟨lower_source, ?_⟩
  intro a n d w hinc
  rcases d with _ | _ | d
  · rw [if_neg (by omega)]
    rfl
  · rw [if_neg (by omega)]
    rfl
  have hargs : Evaluate (meaning (d + 1)) [.int a, .int n] w [.int a, .int n] w :=
    .cons rfl (.cons rfl (.nil w))
  have hcall := run_call_two hinc rfl hargs
  have hbody := run_body n (d + 1) a w hinc
  have hdepth : 4 * n + 5 ≤ d + 1 ↔ 4 * n + 6 ≤ d + 1 + 1 := by omega
  simp only [hdepth] at hbody
  exact hcall.trans (inFrame_of_run_body hbody)

/-- A frame in which the names of the parameters mean something else. -/
def busy : World :=
  { scope := ({} : Scope Term).update [("val", .str "kept"), ("inc", function), ("howmuch", .bool true)] }

theorem run_counting_call_busy :
    busy.scope.get? "inc" = some function ∧
    ((meaning depthLimit).eval (callOf inc [.int (-5), .int 3])).run busy = (.ok (.int (-2)), busy) ∧
    ((meaning 17).eval (callOf inc [.int (-5), .int 3])).run busy = (.error .recursion, busy) := by
  have hinc : busy.scope.get? "inc" = some function := rfl
  refine ⟨hinc, (run_counting_call.2 (-5) 3 depthLimit busy hinc).trans ?_,
    (run_counting_call.2 (-5) 3 17 busy hinc).trans ?_⟩
  · rw [if_pos (by decide)]
    rfl
  · rw [if_neg (by decide)]

end Counting

end Eval

end Offside
