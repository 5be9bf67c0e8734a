import Mathlib.Data.List.Nodup
import Mathlib.Data.List.Pairwise
import Offside.Operator.Reader
import Offside.Proofs.Scope.Lookup
/-!
# The order of declarations

A table is made from declarations, one after the other.  Each of them says something about one or two
signs: that the sign binds at least with some power, and perhaps a role of it (`Declaration.remarks`).
What the table says about a sign in the end is all of that put together, the strongest of the powers and
for each role the last one that was given (`lookup_ofDeclarations`).

Powers can be put together in any order, and so can roles if none of them is given twice.  Then the table
has the same entries for every order of the declarations (`perm_of_lookup`), and whoever reads with it sees
no difference, because a reader only looks up signs (`read_congr`).
-/

namespace Offside

/-! ## 1. What a declaration says

A declaration does up to two things to a table: it notes a power for each sign that it mentions, and it gives
one of them a role.  Both are remarks on a sign, and a remark without a role is one that only notes a power.
-/

namespace Declaration

/-- What a declaration says: an operator stands for the power with which a sign binds at least and for
the role that it is given, if it is given one. -/
def remarks : Declaration → List (Option String × Operator)
  | before s p m => [(some s, { power := 0, opening := some (.before p m) })]
  | alone s m => [(some s, { power := 0, opening := some (.alone m) })]
  | enclosing o c m =>
    [(some o, { power := 0, opening := some (.enclosing c m) }), (some c, { power := 0 })]
  | left s p m => [(some s, { power := p, joining := some (.left m) })]
  | right s p m => [(some s, { power := p, joining := some (.right m) })]
  | after s p m => [(some s, { power := p, joining := some (.after m) })]
  | index o c m =>
    [(some o, { power := OperatorTable.indexPower, joining := some (.index c m) }), (c, { power := 0 })]
  | choice p m => [(some "if", { power := p, joining := some (.choice m) }), (some "else", { power := 0 })]

/-- The sign that a declaration gives a role at the start of an expression. -/
def opens : Declaration → Option String
  | before s _ _ => some s
  | alone s _ => some s
  | enclosing o _ _ => some o
  | _ => none

/-- The sign that a declaration gives a role after a left operand. -/
def joins : Declaration → Option String
  | left s _ _ => some s
  | right s _ _ => some s
  | after s _ _ => some s
  | index o _ _ => some o
  | choice _ _ => some "if"
  | _ => none

/-- The powers with which declarations say that a sign binds at least. -/
def powersOf (ds : List Declaration) (sign : Option String) : List Int :=
  ((ds.flatMap remarks).filter (·.1 = sign)).map (·.2.power)

end Declaration

namespace Operator

/-- What is known about a sign after one more remark on it. -/
def merge : Option Operator → Operator → Operator
  | none, q => q
  | some o, q => ⟨max q.power o.power, q.opening.or o.opening, q.joining.or o.joining⟩

/-- What is known about `sign` after one more remark on some sign. -/
def heed (sign : Option String) (o : Option Operator) (r : Option String × Operator) : Option Operator :=
  if r.1 = sign then some (merge o r.2) else o

end Operator

namespace OperatorTable

open Operator (merge heed)

/-! ## 2. Single changes to a table

A table is changed in place, entry by entry.  What counts is what a look-up gives afterwards, and for that
each change is one remark that is heeded (`heed`). -/

/-- To alter an entry changes what is found under its own key only.  If there was none it is made from an
empty one. -/
theorem lookup_alter (s k : Option String) (f : Operator → Operator)
    (es : List (Option String × Operator)) :
    (alter k f es).lookup s =
      if k = s then some (f ((es.lookup s).getD { power := 0 })) else es.lookup s := by
  induction es with
  | nil =>
    rw [alter, lookup_cons_eq_ite]
    simp [eq_comm]
  | cons e es ih =>
    obtain ⟨n, o⟩ := e
    rw [alter]
    by_cases hn : n = k
    · subst hn
      rw [if_pos rfl, lookup_cons_eq_ite, lookup_cons_eq_ite]
      by_cases hs : s = n
      · simp [hs]
      · simp [hs, Ne.symm hs]
    · rw [if_neg hn, lookup_cons_eq_ite, lookup_cons_eq_ite, ih]
      by_cases hs : s = n
      · simp [hs, Ne.symm hn]
      · simp [hs]

/-- A key is in the table if something is found under it. -/
theorem has_eq (t : OperatorTable) (k : Option String) : t.has k = (t.entries.lookup k).isSome := by
  unfold has
  induction t.entries with
  | nil => rfl
  | cons e es ih =>
    obtain ⟨n, o⟩ := e
    rw [List.any_cons, ih, lookup_cons_eq_ite]
    by_cases h : k = n
    · simp [h]
    · simp [h, Ne.symm h]

/-- To note a power is a remark without a role. -/
theorem lookup_register (t : OperatorTable) (s k : Option String) (p : Int) :
    (t.register k p).entries.lookup s = heed s (t.entries.lookup s) (k, { power := p }) := by
  rw [register, lookup_alter, heed]
  by_cases hs : k = s
  · subst hs
    rw [if_pos rfl, if_pos rfl, has_eq]
    cases t.entries.lookup k <;> rfl
  · rw [if_neg hs, if_neg hs]

theorem lookup_setOpening (t : OperatorTable) (s : Option String) (k : String) (p : Int) (r : Opening) :
    ((t.register (some k) p).setOpening k r).entries.lookup s =
      heed s (t.entries.lookup s) (some k, { power := p, opening := some r }) := by
  rw [setOpening, lookup_alter, lookup_register, heed, heed]
  by_cases hs : some k = s
  · simp only [if_pos hs]
    cases t.entries.lookup s <;> rfl
  · simp only [if_neg hs]

theorem lookup_setJoining (t : OperatorTable) (s : Option String) (k : String) (p : Int) (r : Joining) :
    ((t.register (some k) p).setJoining k r).entries.lookup s =
      heed s (t.entries.lookup s) (some k, { power := p, joining := some r }) := by
  rw [setJoining, lookup_alter, lookup_register, heed, heed]
  by_cases hs : some k = s
  · simp only [if_pos hs]
    cases t.entries.lookup s <;> rfl
  · simp only [if_neg hs]

/-! ## 3. What a table says in the end

What a declaration does to an entry of the table is done by its remarks, one after the other (`heed`), and
each remark is about one sign.  So the entry of a sign can be computed without the rest of the table. -/

/-- One declaration: its remarks are heeded in order. -/
theorem lookup_declare (t : OperatorTable) (d : Declaration) (s : Option String) :
    (t.declare d).entries.lookup s = d.remarks.foldl (heed s) (t.entries.lookup s) := by
  cases d with
  | before k p m => exact lookup_setOpening t s k 0 _
  | alone k m => exact lookup_setOpening t s k 0 _
  | enclosing o c m =>
    rw [declare, lookup_register, lookup_setOpening]
    rfl
  | left k p m => exact lookup_setJoining t s k p _
  | right k p m => exact lookup_setJoining t s k p _
  | after k p m => exact lookup_setJoining t s k p _
  | index o c m =>
    rw [declare, lookup_register, lookup_setJoining]
    rfl
  | choice p m =>
    rw [declare, lookup_register, lookup_setJoining]
    rfl

/-- **All declarations**: what is known about a sign is what all the remarks come to.  The table is a fold
over the declarations and each of them a fold over its remarks, so the whole is one fold. -/
theorem lookup_ofDeclarations (ds : List Declaration) (s : Option String) :
    (ofDeclarations ds).entries.lookup s = (ds.flatMap Declaration.remarks).foldl (heed s) none := by
  have hfold : ∀ t : OperatorTable, (ds.foldl declare t).entries.lookup s =
      (ds.flatMap Declaration.remarks).foldl (heed s) (t.entries.lookup s) := by
    induction ds with
    | nil => exact fun _ => rfl
    | cons d ds ih =>
      intro t
      rw [List.foldl_cons, ih, lookup_declare, List.flatMap_cons, List.foldl_append]
  exact hfold {}

/-- A sign binds with the strongest of its powers. -/
theorem power_ofDeclarations (ds : List Declaration) (s : Option String) :
    ((ofDeclarations ds).entries.lookup s).map (·.power) = (Declaration.powersOf ds s).max? := by
  have hfold : ∀ (rs : List (Option String × Operator)) (o : Operator),
      (rs.foldl (heed s) (some o)).map (·.power) =
        some (((rs.filter (·.1 = s)).map (·.2.power)).foldl max o.power) := by
    intro rs
    induction rs with
    | nil => exact fun _ => rfl
    | cons r rs ih =>
      intro o
      by_cases hr : r.1 = s
      · simp [heed, hr, ih, merge, Int.max_comm]
      · simp [heed, hr, ih]
  rw [lookup_ofDeclarations, Declaration.powersOf]
  generalize ds.flatMap Declaration.remarks = rs
  induction rs with
  | nil => rfl
  | cons r rs ih =>
    by_cases hr : r.1 = s
    · simp [heed, hr, hfold, merge, List.max?_cons', -List.max?_cons]
    · simpa [heed, hr] using ih

/-! ## 4. The order of declarations

A fold does not depend on the order of a list if any two of its steps commute.  Two remarks on different signs
always do.  Two remarks on one sign put their powers together by the maximum, and of each role at most one of
them says anything. -/

/-- Two remarks do not give the same role to one sign. -/
def Compatible (r q : Option String × Operator) : Prop :=
  r.1 = q.1 → (r.2.opening = none ∨ q.2.opening = none) ∧ (r.2.joining = none ∨ q.2.joining = none)

theorem or_left_comm {α : Type} {x y : Option α} (h : x = none ∨ y = none) (z : Option α) :
    x.or (y.or z) = y.or (x.or z) := by
  rcases h with rfl | rfl <;> rfl

/-- Remarks that are compatible can be heeded in either order.  The power is a maximum.  Of two roles of a
kind one is not given, so it does not matter which comes last. -/
theorem heed_comm {r q : Option String × Operator} (h : Compatible r q) (s : Option String)
    (o : Option Operator) : heed s (heed s o r) q = heed s (heed s o q) r := by
  by_cases hr : r.1 = s
  · by_cases hq : q.1 = s
    · obtain ⟨hopen, hjoin⟩ := h (hr.trans hq.symm)
      cases o with
      | none =>
        have hopen := or_left_comm hopen none
        have hjoin := or_left_comm hjoin none
        simp only [Option.or_none] at hopen hjoin
        simp only [heed, if_pos hr, if_pos hq, merge, hopen, hjoin, Int.max_comm]
      | some o =>
        have hpower : max q.2.power (max r.2.power o.power) = max r.2.power (max q.2.power o.power) := by
          omega
        simp only [heed, if_pos hr, if_pos hq, merge, hpower, or_left_comm hopen, or_left_comm hjoin]
    · simp only [heed, if_neg hq]
  · simp only [heed, if_neg hr]

/-- If no sign is given a role twice, then of two remarks on a sign only one gives it the role. -/
theorem role_eq_none {ρ : Type} {role : Operator → Option ρ} {rs : List (Option String × Operator)}
    (h : (rs.filterMap fun r => (role r.2).map fun _ => r.1).Nodup) {r q : Option String × Operator}
    (hr : r ∈ rs) (hq : q ∈ rs) (hne : r ≠ q) (hsign : r.1 = q.1) : role r.2 = none ∨ role q.2 = none := by
  have hpairs := List.pairwise_filterMap.1 h
  have : Std.Symm fun a a' : Option String × Operator => ∀ b, (role a.2).map (fun _ => a.1) = some b →
      ∀ b', (role a'.2).map (fun _ => a'.1) = some b' → b ≠ b' :=
    ⟨fun a a' haa b hb b' hb' => (haa b' hb' b hb).symm⟩
  have hrq := hpairs.forall hr hq hne
  cases hrole : role r.2 with
  | none => exact .inl rfl
  | some x =>
    cases hrole' : role q.2 with
    | none => exact .inr rfl
    | some y => exact absurd hsign (hrq _ (by rw [hrole]; rfl) _ (by rw [hrole']; rfl))

theorem openers_remarks (ds : List Declaration) :
    (ds.flatMap Declaration.remarks).filterMap (fun r => r.2.opening.map fun _ => r.1) =
      (ds.filterMap Declaration.opens).map some := by
  induction ds with
  | nil => rfl
  | cons d ds ih =>
    rw [List.flatMap_cons, List.filterMap_append, ih]
    cases d <;> rfl

theorem joiners_remarks (ds : List Declaration) :
    (ds.flatMap Declaration.remarks).filterMap (fun r => r.2.joining.map fun _ => r.1) =
      (ds.filterMap Declaration.joins).map some := by
  induction ds with
  | nil => rfl
  | cons d ds ih =>
    rw [List.flatMap_cons, List.filterMap_append, ih]
    cases d <;> rfl

/-- No role of a sign is declared twice. -/
structure Distinct (ds : List Declaration) : Prop where
  opens : (ds.filterMap Declaration.opens).Nodup
  joins : (ds.filterMap Declaration.joins).Nodup

variable {ds es : List Declaration}

theorem Distinct.compatible (h : Distinct ds) {r q : Option String × Operator}
    (hr : r ∈ ds.flatMap Declaration.remarks) (hq : q ∈ ds.flatMap Declaration.remarks) (hne : r ≠ q) :
    Compatible r q := by
  have hinj : Function.Injective (some : String → Option String) := fun _ _ => Option.some.inj
  have hopens := openers_remarks ds ▸ h.opens.map hinj
  have hjoins := joiners_remarks ds ▸ h.joins.map hinj
  exact fun hsign => ⟨role_eq_none hopens hr hq hne hsign, role_eq_none hjoins hr hq hne hsign⟩

/-- The same is known about every sign, in whichever order it was declared.  A fold may be taken in any order
if any two of its steps commute; two different remarks do, as they are compatible, and a remark commutes with
itself. -/
theorem lookup_perm (h : Distinct ds) (hperm : ds.Perm es) (s : Option String) :
    (ofDeclarations ds).entries.lookup s = (ofDeclarations es).entries.lookup s := by
  rw [lookup_ofDeclarations, lookup_ofDeclarations]
  refine (hperm.flatMap_right Declaration.remarks).foldl_eq' (fun r hr q hq o => ?_) none
  by_cases hrq : r = q
  · rw [hrq]
  · exact heed_comm (h.compatible hr hq hrq) s o

/-! ## 5. The entries of a table

The entries themselves stand in the order in which the signs were first mentioned, so they are the same up to
their order only. -/

/-- The signs of a list of entries. -/
def keys (es : List (Option String × Operator)) : List (Option String) := es.map (·.1)

/-- A new key is put at the end, and an old one stays where it is. -/
theorem keys_alter (k : Option String) (f : Operator → Operator) (es : List (Option String × Operator)) :
    keys (alter k f es) = if k ∈ keys es then keys es else keys es ++ [k] := by
  induction es with
  | nil => rfl
  | cons e es ih =>
    obtain ⟨n, o⟩ := e
    rw [alter]
    by_cases hn : n = k
    · simp [keys, hn]
    · rw [if_neg hn]
      show n :: keys (alter k f es) = if k ∈ n :: keys es then n :: keys es else n :: keys es ++ [k]
      rw [ih]
      by_cases hk : k ∈ keys es
      · simp [hk]
      · simp [hk, Ne.symm hn]

theorem nodup_alter (k : Option String) (f : Operator → Operator) {es : List (Option String × Operator)}
    (h : (keys es).Nodup) : (keys (alter k f es)).Nodup := by
  rw [keys_alter]
  split
  · exact h
  · rename_i hk
    refine List.nodup_append.2 ⟨h, List.nodup_singleton k, fun a ha b hb hab => hk ?_⟩
    rwa [← List.mem_singleton.1 hb, ← hab]

/-- A table has one entry for each sign. -/
theorem nodup_ofDeclarations (ds : List Declaration) : (keys (ofDeclarations ds).entries).Nodup := by
  have hstep : ∀ (t : OperatorTable) (d : Declaration), (keys t.entries).Nodup →
      (keys (t.declare d).entries).Nodup := by
    intro t d h
    cases d with
    | enclosing => exact nodup_alter _ _ (nodup_alter _ _ (nodup_alter _ _ h))
    | index => exact nodup_alter _ _ (nodup_alter _ _ (nodup_alter _ _ h))
    | choice => exact nodup_alter _ _ (nodup_alter _ _ (nodup_alter _ _ h))
    | _ => exact nodup_alter _ _ (nodup_alter _ _ h)
  exact List.foldlRecOn ds declare List.nodup_nil fun t ht d _ => hstep t d ht

/-- Since no key occurs twice, an entry of the table is what is found under its key. -/
theorem lookup_eq_some_iff_mem {es : List (Option String × Operator)} (h : (keys es).Nodup)
    (k : Option String) (o : Operator) : es.lookup k = some o ↔ (k, o) ∈ es := by
  induction es with
  | nil => simp
  | cons e es ih =>
    obtain ⟨n, q⟩ := e
    obtain ⟨hn, hes⟩ := List.nodup_cons.1 h
    rw [lookup_cons_eq_ite, List.mem_cons, ← ih hes]
    by_cases hk : k = n
    · subst hk
      have hnone : es.lookup k ≠ some o := fun ho => hn (List.mem_map.2 ⟨(k, o), (ih hes).1 ho, rfl⟩)
      simp [hnone, eq_comm]
    · simp [hk]

/-- Tables that say the same about every sign have the same entries. -/
theorem perm_of_lookup {es fs : List (Option String × Operator)} (hes : (keys es).Nodup)
    (hfs : (keys fs).Nodup) (h : ∀ s, es.lookup s = fs.lookup s) : es.Perm fs := by
  rw [List.perm_ext_iff_of_nodup (.of_map _ hes) (.of_map _ hfs)]
  rintro ⟨k, o⟩
  rw [← lookup_eq_some_iff_mem hes, ← lookup_eq_some_iff_mem hfs, h]

/-! ## 6. Readers only look up signs

Two tables with the same answers for all signs are read with in the same way.  The table is also asked whether
it is empty, which is the one thing about it that is no question about a sign. -/

section Reading

variable {t t' : OperatorTable} (h : ∀ s, t.find? s = t'.find? s)

include h

theorem power_congr : t.power = t'.power := by
  funext tok
  cases tok with
  | symbol s => simp only [power, h]
  | _ => rfl

theorem start_congr : t.start = t'.start := by
  funext r tok rest
  unfold start
  cases tok <;> simp only [h]

theorem join_congr : t.join = t'.join := by
  funext r tok left rest
  cases tok with
  | symbol s => simp only [join, h]
  | _ => rfl

/-- At every depth expressions are read and extended in the same way.  The two functions call each other, so
the induction on the depth is for both at once. -/
theorem expr_congr (n : Nat) : t.expr n = t'.expr n ∧ t.extend n = t'.extend n := by
  induction n with
  | zero => exact ⟨rfl, rfl⟩
  | succ n ih =>
    obtain ⟨hexpr, hextend⟩ := ih
    constructor
    · funext p toks
      cases toks with
      | nil => rfl
      | cons tok rest => simp only [expr, start_congr h, hexpr, hextend]
    · funext p left toks
      cases toks with
      | nil => rfl
      | cons tok rest => simp only [extend, power_congr h, join_congr h, hexpr, hextend]

theorem read_congr (hempty : t.entries.isEmpty = t'.entries.isEmpty) : t.read = t'.read := by
  funext toks
  simp only [read, hempty, (expr_congr h _).1]

end Reading

/-! ## 7. The order does not count -/

/-- **Declarations commute.**  If no role of a sign is declared twice, then in every order the
declarations give the same entries, in which each sign has the strongest of its powers, and every list of
tokens is read in the same way. -/
theorem declarations_commute (h : Distinct ds) (hperm : ds.Perm es) :
    (ofDeclarations ds).entries.Perm (ofDeclarations es).entries ∧
    (∀ s, ((ofDeclarations ds).entries.lookup s).map (·.power) = (Declaration.powersOf ds s).max?) ∧
    ∀ toks, (ofDeclarations ds).read toks = (ofDeclarations es).read toks := by
  have hlookup := lookup_perm h hperm
  have hentries := perm_of_lookup (nodup_ofDeclarations ds) (nodup_ofDeclarations es) hlookup
  refine ⟨hentries, power_ofDeclarations ds, fun toks => ?_⟩
  rw [read_congr (fun s => hlookup (some s)) hentries.isEmpty_eq]

/-- Signs with two roles each: a minus before and between operands, brackets around an expression and
after one. -/
def twofold : List Declaration :=
  [ .before "-" 100 (.phrase .minus), .left "-" 20 (.phrase .sub), .enclosing "[" "]" (.phrase .brackets),
    .index "[" (some "]") (.phrase .subscript), .right "]" (-3) (.phrase .pow) ]

theorem declarations_commute_twofold : Distinct twofold ∧ twofold.Perm twofold.reverse ∧
    (ofDeclarations twofold).entries.Perm (ofDeclarations twofold.reverse).entries ∧
    ((ofDeclarations twofold).entries.lookup (some "-")).map (·.power) = some 20 ∧
    ((ofDeclarations twofold).entries.lookup (some "]")).map (·.power) = some 0 ∧
    ∀ toks, (ofDeclarations twofold).read toks = (ofDeclarations twofold.reverse).read toks := by
  have hdistinct : Distinct twofold := ⟨by decide, by decide⟩
  have hperm : twofold.Perm twofold.reverse := (List.reverse_perm twofold).symm
  obtain ⟨hentries, hpower, hread⟩ := declarations_commute hdistinct hperm
  exact ⟨hdistinct, hperm, hentries, hpower (some "-"), hpower (some "]"), hread⟩

end OperatorTable

end Offside
