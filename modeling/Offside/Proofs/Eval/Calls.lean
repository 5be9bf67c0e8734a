import Mathlib.Data.List.Forall2
import Offside.Proofs.Eval.Depth
import Offside.Proofs.Eval.Isolation
import Offside.Proofs.Scope.Lookup
import Offside.Proofs.Tree.Shape
/-!
# What a call binds

A call of a function with parameters evaluates the function and its arguments in the frame of the caller
and runs the body in a new frame.  That frame is meant to bind every parameter to the value of its argument
and nothing else.

Whether there is one argument or a list of them is not decided by how the call is written.  A list of
arguments is an array of terms, and a call looks at the value of what stands in the place of its arguments:
a leaf is one argument, and everything else stands for its members.

* With two arguments or more there is an array, and its members are the arguments (`run_call_list`).
* With one argument it depends on the value.  A number, a text or a truth value is the argument
  (`run_call_leaf`).  An array or a function is taken apart: unless it has exactly one member, the call
  fails, and otherwise that member is evaluated and takes the place of the argument (`call_binds`).
-/

namespace Offside

namespace Eval

open Offside.Tree (Visits VisitsAll)

/-! ## 1. Calls

A call is written with commas between its arguments, and it is run with one term in their place.  Two passes
lie between: arguments with commas are enclosed, and enclosed arguments become an array.  With a single
argument neither happens, so nothing in the tree tells an argument from a list of them. -/

/-- What a call has in the place of its arguments. -/
def argumentsOf : List Term → Term
  | [e] => e
  | es => .action .array es

def callOf (func : Term) (es : List Term) : Term := .action .call [func, argumentsOf es]

/-- A call as it is read: several arguments have commas between them. -/
def writtenCall (func : Term) : List Term → Term
  | [e] => .phrase .call [func, e]
  | es => .phrase .call [func, .phrase .comma es]

/-- What is read as `t` is run as `c`: the arguments of calls are enclosed, and then the tree is lowered. -/
def Compiles (t c : Term) : Prop := ∃ u, Visits Tree.bracketArguments t u ∧ Visits Tree.lowerNode u c

theorem compiles_all {ts cs : List Term} (h : List.Forall₂ Compiles ts cs) :
    ∃ us, VisitsAll Tree.bracketArguments ts us ∧ VisitsAll Tree.lowerNode us cs := by
  induction h with
  | nil => exact ⟨[], Tree.visitsAll_nil, Tree.visitsAll_nil⟩
  | cons ht _ ih =>
    obtain ⟨u, hu, hc⟩ := ht
    obtain ⟨us, hus, hcs⟩ := ih
    exact ⟨u :: us, Tree.visitsAll_cons hu hus, Tree.visitsAll_cons hc hcs⟩

/-- Arguments with commas between them become an array. -/
theorem compiles_call_list {ft func : Term} {ts es : List Term} (hf : Compiles ft func)
    (hes : List.Forall₂ Compiles ts es) :
    Compiles (.phrase .call [ft, .phrase .comma ts]) (.action .call [func, .action .array es]) := by
  obtain ⟨ft', hft, hfunc⟩ := hf
  obtain ⟨us, hus, hcs⟩ := compiles_all hes
  have hcomma : Visits Tree.bracketArguments (.phrase .comma ts) (.phrase .comma us) :=
    Tree.visits_node hus rfl
  have harray : Visits Tree.lowerNode (.phrase .brackets [.phrase .comma us]) (.action .array es) :=
    Tree.visits_node (Tree.visitsAll_one (Tree.visits_node hcs rfl)) rfl
  exact ⟨.phrase .call [ft', .phrase .brackets [.phrase .comma us]],
    Tree.visits_node (Tree.visitsAll_two hft hcomma) rfl,
    Tree.visits_node (Tree.visitsAll_two hfunc harray) rfl⟩

/-- One argument that is no comma gets no brackets, so the call is lowered with the argument itself. -/
theorem compiles_call_one {ft func t e : Term} (hf : Compiles ft func) (he : Compiles t e)
    (ht : t.isPhrase .comma = false) : Compiles (.phrase .call [ft, t]) (.action .call [func, e]) := by
  obtain ⟨ft', hft, hfunc⟩ := hf
  obtain ⟨u, hu, hlower⟩ := he
  have hcomma : u.isPhrase .comma = false := by
    obtain rfl : u = Tree.bracketed t := Except.ok.inj (hu.symm.trans (Tree.visits_bracketed t))
    rw [Tree.isPhrase_bracketed, ht]
  have hkeep : Tree.bracketArguments (.phrase .call [ft', u]) = .ok (.phrase .call [ft', u]) := by
    simp only [Term.phrase, Tree.bracketArguments, hcomma]
    rfl
  exact ⟨.phrase .call [ft', u], Tree.visits_node (Tree.visitsAll_two hft hu) hkeep,
    Tree.visits_node (Tree.visitsAll_two hfunc hlower) rfl⟩

/-- A call is run with an array of its arguments, or with the one that it has. -/
theorem compiles_writtenCall {ft func : Term} {ts es : List Term} (hf : Compiles ft func)
    (hes : List.Forall₂ Compiles ts es) (ht : ∀ t, ts = [t] → t.isPhrase .comma = false) :
    Compiles (writtenCall ft ts) (callOf func es) := by
  cases hes with
  | nil => exact compiles_call_list hf .nil
  | cons he hrest =>
    cases hrest with
    | nil => exact compiles_call_one hf he (ht _ rfl)
    | cons he' hrest => exact compiles_call_list hf (.cons he (.cons he' hrest))

/-! ## 2. Functions, arguments and values

The values that a call may come to, and what it is to evaluate arguments one after the other.  A value is
evaluated to itself and is left alone by the conversion of arguments, so that evaluating an argument a second
time does no harm. -/

/-- The function has these parameters and this body. -/
inductive IsFunction (xs : List String) (body : Term) : Term → Prop where
  | mk (s : Site) (k : NodeKind) (s' : Site) {ks : List Term}
      (h : List.Forall₂ (fun x t => ∃ leaf site, t = .leaf leaf site (.text x)) xs ks) :
      IsFunction xs body (.node (.action .func) s [.node k s' ks, body])

/-- The values of a program. -/
inductive IsValue : Term → Prop where
  | int (s : Site) (n : Int) : IsValue (.leaf (.datum .int) s (.number n))
  | str (s : Site) (text : String) : IsValue (.leaf (.datum .str) s (.text text))
  | bool (s : Site) (b : Bool) : IsValue (.leaf (.datum .bool) s (.flag b))
  | array (s : Site) (items : List Term) : IsValue (.node (.action .array) s items)
  | func (s : Site) (params body : Term) : IsValue (.node (.action .func) s [params, body])
  | thunk (s : Site) (body : Term) : IsValue (.node (.action .thunk) s [body])

/-- Evaluated one after the other, the terms have these values. -/
inductive Evaluate (r : Meaning) : List Term → World → List Term → World → Prop where
  | nil (w : World) : Evaluate r [] w [] w
  | cons {e v : Term} {es vs : List Term} {w w₁ w₂ : World} (h : (r.eval e).run w = (.ok v, w₁))
      (hs : Evaluate r es w₁ vs w₂) : Evaluate r (e :: es) w (v :: vs) w₂

/-- What comes of a body in a new frame that binds exactly these names.  The frame is dropped at the
end. -/
def inFrame (n : Nat) (bs : List (String × Term)) (body : Term) (w : World) :
    Except Error Term × World :=
  let q := ((meaning n).eval body).run { w with scope := ⟨⟨bs⟩, w.scope.top :: w.scope.outer⟩ }
  (q.1, { q.2 with scope := w.scope })

theorem Evaluate.length_eq {r : Meaning} {es vs : List Term} {w w' : World}
    (h : Evaluate r es w vs w') : vs.length = es.length := by
  induction h with
  | nil => rfl
  | cons _ _ ih => rw [List.length_cons, List.length_cons, ih]

theorem IsValue.lowered_eq {v : Term} (h : IsValue v) : lowered v = .ok v := by
  cases h <;> rfl

/-- A value is evaluated to itself. -/
theorem IsValue.eval_eq {v : Term} (h : IsValue v) (n : Nat) : (meaning (n + 1)).eval v = pure v := by
  cases h <;> rfl

/-! ## 3. Bindings

The arguments are evaluated one by one, in the frame of the caller, and only then a frame is opened for the
body.  A value is bound as it is, since there is nothing to lower in it (`IsValue.lowered_eq`).  The bindings
go to a frame in which nothing is bound yet, so they are all that it binds. -/

/-- Arguments are bound from left to right, each in the world that the one before it left.  The induction
follows the arguments, with the names of the parameters beside them. -/
theorem run_bindings {r : Meaning} {xs : List String} {ks es vs : List Term} {w w' : World}
    (hks : List.Forall₂ (fun x t => ∃ leaf site, t = Term.leaf leaf site (.text x)) xs ks)
    (hes : Evaluate r es w vs w') (hvs : ∀ v ∈ vs, IsValue v) (hlen : xs.length = es.length) :
    (bindings r ks es).run w = (.ok (xs.zip vs), w') := by
  induction hes generalizing xs ks with
  | nil =>
    obtain rfl := List.length_eq_zero_iff.1 hlen
    cases hks
    rfl
  | @cons e v es vs w w₁ w₂ he hes ih =>
    obtain ⟨hv, hvs⟩ := List.forall_mem_cons.1 hvs
    cases hks with
    | nil => cases hlen
    | @cons x k xs ks hk hks =>
      obtain ⟨leaf, site, rfl⟩ := hk
      have hrest := ih hks hvs (Nat.succ.inj hlen)
      rw [bindings, run_bind_of_ok he, hv.lowered_eq]
      show ((do return (x, v) :: (← bindings r ks es)) : Eval (List (String × Term))).run w₁ = _
      rw [run_bind_of_ok hrest]
      rfl

/-- The body runs in a frame that binds the parameters and nothing else. -/
theorem run_runBody {n : Nat} {xs : List String} {body f : Term} (hf : IsFunction xs body f)
    {bs : List (String × Term)} (hbs : (bs.map (·.1)).Nodup) (w : World) :
    (runBody (meaning n) f bs).run w = inFrame n bs body w := by
  cases hf with
  | @mk s k s' ks _ =>
    have hframe : (({} : Frame Term).update bs) = ⟨bs⟩ := Frame.update_of_nodup [] bs hbs
    have hscope := keepsScope_runBody (isolates_meaning n)
      (.node (.action .func) s [.node k s' ks, body]) bs w
    have hrun : (runBody (meaning n) (.node (.action .func) s [.node k s' ks, body]) bs).run w =
        (let q := ((meaning n).eval body).run
          { w with scope := ⟨({} : Frame Term).update bs, w.scope.top :: w.scope.outer⟩ }
        (q.1, { q.2 with scope := q.2.scope.leave })) := rfl
    rw [hrun] at hscope ⊢
    rw [hframe] at hscope ⊢
    simp only [inFrame] at hscope ⊢
    rw [hscope]

/-! ## 4. Calls with any number of arguments

The argument of a call is evaluated to a value `a`, which stands for the terms `items`.  From here on it does
not matter where these come from: if there are as many as parameters, each is evaluated and bound
(`run_call`), and if not, nothing is evaluated any more (`run_call_count`). -/

section Call

variable {n : Nat} {xs : List String} {body f func args a : Term} {items es vs : List Term}
  {w w₀ w₁ w₂ : World}

/-- **What a call binds.**  The function is evaluated, then the arguments as one term; the members of that are
evaluated once more and bound to the parameters in order, if there are as many. -/
theorem run_operands (hf : IsFunction xs body f) (hfunc : ((meaning n).eval func).run w = (.ok f, w₀))
    (hargs : ((meaning n).eval args).run w₀ = (.ok a, w₁)) (hitems : argumentList a = .ok items)
    (hlen : xs.length = items.length) (hes : Evaluate (meaning n) items w₁ vs w₂)
    (hvs : ∀ v ∈ vs, IsValue v) :
    (operands (meaning n) func args).run w = (.ok (f, xs.zip vs), w₂) := by
  cases hf with
  | mk s k s' hks =>
    have hbindings := run_bindings hks hes hvs hlen
    rw [operands, run_bind_of_ok hfunc, run_bind_of_ok hargs, hitems]
    rw [hks.length_eq] at hlen
    simp only [parametersOf, Term.child?, NodeKind.fields, Action.fields, Fields.names, Term.members,
      Term.members?]
    exact (congrArg (fun x : Eval _ => x.run w₁) (if_neg (not_not.2 hlen))).trans
      (run_bind_of_ok hbindings _)

/-- The values of the arguments, or what they are taken for, do not fit the parameters. -/
theorem run_operands_count (hf : IsFunction xs body f)
    (hfunc : ((meaning n).eval func).run w = (.ok f, w₀))
    (hargs : ((meaning n).eval args).run w₀ = (.ok a, w₁)) (hitems : argumentList a = .ok items)
    (hlen : xs.length ≠ items.length) :
    (operands (meaning n) func args).run w = (.error .argumentCount, w₁) := by
  cases hf with
  | mk s k s' hks =>
    rw [operands, run_bind_of_ok hfunc, run_bind_of_ok hargs, hitems]
    rw [hks.length_eq] at hlen
    exact congrArg (fun x : Eval _ => x.run w₁) (if_pos hlen)

theorem eval_call (n : Nat) (func args : Term) : (meaning (n + 1)).eval (.action .call [func, args]) =
    operands (meaning n) func args >>= fun p => runBody (meaning n) p.1 p.2 :=
  call_eq_operands_runBody (meaning n) func args

/-- A call whose argument stands for as many items as there are parameters binds these to the values of
the items. -/
theorem run_call (hf : IsFunction xs body f) (hxs : xs.Nodup)
    (hfunc : ((meaning n).eval func).run w = (.ok f, w₀))
    (hargs : ((meaning n).eval args).run w₀ = (.ok a, w₁)) (hitems : argumentList a = .ok items)
    (hlen : xs.length = items.length) (hes : Evaluate (meaning n) items w₁ vs w₂)
    (hvs : ∀ v ∈ vs, IsValue v) :
    ((meaning (n + 1)).eval (.action .call [func, args])).run w = inFrame n (xs.zip vs) body w₂ := by
  have hnames : (xs.zip vs).map (·.1) = xs :=
    List.map_fst_zip (Nat.le_of_eq (hlen.trans hes.length_eq.symm))
  rw [eval_call, run_bind_of_ok (run_operands hf hfunc hargs hitems hlen hes hvs)]
  exact run_runBody hf (hnames.symm ▸ hxs) w₂

theorem run_call_count (hf : IsFunction xs body f)
    (hfunc : ((meaning n).eval func).run w = (.ok f, w₀))
    (hargs : ((meaning n).eval args).run w₀ = (.ok a, w₁)) (hitems : argumentList a = .ok items)
    (hlen : xs.length ≠ items.length) :
    ((meaning (n + 1)).eval (.action .call [func, args])).run w = (.error .argumentCount, w₁) := by
  rw [eval_call, run_bind, run_operands_count hf hfunc hargs hitems hlen]

/-! ## 5. One argument and several

Where the items come from: an array of arguments stands for the arguments, a leaf stands for itself, and an
array or a function that is the value of the only argument stands for its members. -/

theorem argumentList_leaf {v : Term} (h : IsValue v) (hleaf : v.isNode = false) :
    argumentList v = .ok [v] := by
  cases h with
  | int => rfl
  | str => rfl
  | bool => rfl
  | _ => cases hleaf

/-- A value that has members is taken for a list of arguments. -/
theorem argumentList_node {v : Term} (h : IsValue v) (hitems : v.members? = some items) :
    argumentList v = .ok items := by
  cases h with
  | int => cases hitems
  | str => cases hitems
  | bool => cases hitems
  | _ =>
    obtain rfl := Option.some.inj hitems
    rfl

/-- A list of arguments is an array, which is evaluated to itself. -/
theorem run_call_list (hf : IsFunction xs body f) (hxs : xs.Nodup) (hlen : xs.length = es.length)
    (hne : es ≠ []) (hfunc : ((meaning n).eval func).run w = (.ok f, w₀))
    (hes : Evaluate (meaning n) es w₀ vs w₁) (hvs : ∀ v ∈ vs, IsValue v) :
    ((meaning (n + 1)).eval (.action .call [func, .action .array es])).run w =
      inFrame n (xs.zip vs) body w₁ := by
  have harray : ((meaning n).eval (.action .array es)).run w₀ = (.ok (.action .array es), w₀) := by
    cases hes with
    | nil => exact absurd rfl hne
    | cons he _ =>
      obtain ⟨m, rfl⟩ := pos_of_run_ok he
      rfl
  exact run_call hf hxs hfunc harray rfl hlen hes hvs

/-- One argument that is a leaf is evaluated once more, which makes no difference. -/
theorem run_call_leaf {x : String} {e v : Term} (hf : IsFunction [x] body f)
    (hfunc : ((meaning n).eval func).run w = (.ok f, w₀))
    (he : ((meaning n).eval e).run w₀ = (.ok v, w₁)) (hv : IsValue v) (hleaf : v.isNode = false) :
    ((meaning (n + 1)).eval (.action .call [func, e])).run w = inFrame n [(x, v)] body w₁ := by
  have hagain : Evaluate (meaning n) [v] w₁ [v] w₁ := by
    obtain ⟨m, rfl⟩ := pos_of_run_ok he
    refine .cons ?_ (.nil w₁)
    rw [hv.eval_eq]
    rfl
  exact run_call hf (List.pairwise_singleton _ x) hfunc he (argumentList_leaf hv hleaf) rfl hagain
    (List.forall_mem_singleton.2 hv)

/-- **What a call binds.**  A call of a function with as many arguments as parameters runs the body in a new
frame that binds exactly the parameters, to the values of the arguments, if there are two arguments or more
or the one that there is has a leaf for its value.  If its value is an array or a function, it stands for
its members: unless there is exactly one the call fails, and if there is one, the parameter is bound to the
value of that. -/
theorem call_binds (hf : IsFunction xs body f) (hxs : xs.Nodup) (hlen : xs.length = es.length)
    (hne : es ≠ []) (hfunc : ((meaning n).eval func).run w = (.ok f, w₀))
    (hes : Evaluate (meaning n) es w₀ vs w₁) (hvs : ∀ v ∈ vs, IsValue v) :
    (∀ ft ts, Compiles ft func → List.Forall₂ Compiles ts es →
      (∀ t, ts = [t] → t.isPhrase .comma = false) → Compiles (writtenCall ft ts) (callOf func es)) ∧
    (2 ≤ es.length ∨ (∀ v ∈ vs, v.isNode = false) →
      ((meaning (n + 1)).eval (callOf func es)).run w = inFrame n (xs.zip vs) body w₁) ∧
    (∀ v items, vs = [v] → v.members? = some items →
      (items.length ≠ 1 →
        ((meaning (n + 1)).eval (callOf func es)).run w = (.error .argumentCount, w₁)) ∧
      ∀ t u w₂, items = [t] → ((meaning n).eval t).run w₁ = (.ok u, w₂) → IsValue u →
        ((meaning (n + 1)).eval (callOf func es)).run w = inFrame n (xs.zip [u]) body w₂) := by
  refine ⟨fun ft ts => compiles_writtenCall, ?_, ?_⟩
  · intro hcase
    cases hes with
    | nil => exact absurd rfl hne
    | cons he hrest =>
      cases hrest with
      | nil =>
        obtain ⟨x, rfl⟩ := List.length_eq_one_iff.1 hlen
        have hleaf := hcase.resolve_left (Nat.not_succ_le_self 1)
        exact run_call_leaf hf hfunc he (hvs _ List.mem_cons_self) (hleaf _ List.mem_cons_self)
      | cons he' hrest => exact run_call_list hf hxs hlen hne hfunc (.cons he (.cons he' hrest)) hvs
  · rintro v items rfl hmembers
    have hitems := argumentList_node (hvs v List.mem_cons_self) hmembers
    cases hes with
    | cons he hrest =>
      cases hrest
      refine ⟨fun hcount => ?_, ?_⟩
      · refine run_call_count hf hfunc he hitems ?_
        rw [hlen]
        exact Ne.symm hcount
      · rintro t u w₂ rfl ht hu
        exact run_call hf hxs hfunc he hitems hlen (.cons ht (.nil w₂)) (List.forall_mem_singleton.2 hu)

end Call

/-- A function whose parameters have these names. -/
def functionOf (xs : List String) (body : Term) : Term :=
  .action .func [.phrase .list (xs.map fun x => .datum .var (.text x)), body]

theorem isFunction_functionOf (xs : List String) (body : Term) :
    IsFunction xs body (functionOf xs body) := by
  refine .mk none _ none ?_
  rw [List.forall₂_map_right_iff, List.forall₂_same]
  exact fun x _ => ⟨.datum .var, none, rfl⟩

/-- `(g, a) -> g a` -/
def applying : Term :=
  functionOf ["g", "a"] (.action .call [.datum .var (.text "g"), .datum .var (.text "a")])

/-- `(y) -> y + 1` -/
def successor : Term := functionOf ["y"] (.action .add [.datum .var (.text "y"), .int 1])

/-- With two arguments, a function is as good a value as a number. -/
theorem call_binds_successor :
    Evaluate (meaning 6) [successor, .int 3] {} [successor, .int 3] {} ∧
    ((meaning 7).eval (callOf applying [successor, .int 3])).run {} = (.ok (.int 4), {}) := by
  have hes : Evaluate (meaning 6) [successor, .int 3] {} [successor, .int 3] {} :=
    .cons rfl (.cons rfl (.nil {}))
  have hvs : ∀ v ∈ [successor, .int 3], IsValue v :=
    List.forall_mem_cons.2 ⟨.func .., List.forall_mem_singleton.2 (.int ..)⟩
  have hf : ((meaning 6).eval applying).run {} = (.ok applying, {}) := rfl
  have hcall := (call_binds (isFunction_functionOf ["g", "a"] _) (by decide) rfl (by decide) hf hes
    hvs).2.1 (.inl (Nat.le_refl 2))
  exact ⟨hes, hcall.trans rfl⟩

/-- With one argument it is not: `(x) -> 7` cannot be called with an array of two, nor with a function. -/
theorem calls_of_one_argument_fail :
    Evaluate (meaning 3) [.action .array [.int 1, .int 2]] {} [.action .array [.int 1, .int 2]] {} ∧
    ((meaning 4).eval (callOf (functionOf ["x"] (.int 7)) [.action .array [.int 1, .int 2]])).run {} =
      (.error .argumentCount, {}) ∧
    Evaluate (meaning 3) [successor] {} [successor] {} ∧
    ((meaning 4).eval (callOf (functionOf ["x"] (.int 7)) [successor])).run {} =
      (.error .argumentCount, {}) :=
  ⟨.cons rfl (.nil {}), rfl, .cons rfl (.nil {}), rfl⟩

end Eval

end Offside
