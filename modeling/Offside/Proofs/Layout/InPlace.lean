import Offside.Proofs.Layout.Bodies
/-!
# Adding and dropping columns in place

`addBodyDents` and `collapseDents` make new lists.  Here the same is done to a list that is changed while a
loop walks over it: a column is put into the list behind the place where the loop is, and comes up in the next
round; of two columns in a row the first one is taken out.  Both loops end, with the lists that the functions
make (`in_place`).

It is not clear that the first loop ends, since the list grows while it is read.  But a column that was put in
is passed like any other, and nothing is put in after it.  So what a round does to the part of the list that
has not been read can be said by the function: it gives one token, and then what the function gives for the
part that is left after the round (`bodyRound_on`).

Lists that can be changed have numbers.  A loop works on a copy, which gets a new number, and the lists that
were there before stay as they are.
-/

namespace Offside

namespace Layout

/-! ## 1. Loops

A loop is given by what one round does, and `Ends` counts the rounds up to the one that gives nothing.  Lists
have numbers, as they can be changed: a walk knows the number of its list, and all other lists are part of its
state, so that it can be said that they stay as they are. -/

/-- The loop ends in the second state, after `n` rounds.  A round that gives nothing ends the loop. -/
inductive Ends {σ : Type} (round : σ → Option σ) : (n : Nat) → σ → σ → Prop where
  | here {s : σ} (h : round s = none) : Ends round 0 s s
  | round {n : Nat} {s t u : σ} (h : round s = some t) (hrest : Ends round n t u) : Ends round (n + 1) s u

/-- A walk over one of several lists, which may be changed on the way. -/
structure Walk where
  lists : List (List Term)
  /-- the number of the list -/
  place : Nat
  /-- how much of it has been read -/
  index : Nat
  column : Int

namespace Walk

/-- The list that is walked over. -/
def tokens (w : Walk) : List Term := w.lists.getD w.place []

/-- Changes the list that is walked over. -/
def write (w : Walk) (ts : List Term) : Walk := { w with lists := w.lists.set w.place ts }

/-- A walk over a list with the next free number. -/
def on (lists : List (List Term)) (ts : List Term) (index : Nat) (column : Int) : Walk :=
  ⟨lists ++ [ts], lists.length, index, column⟩

/-- The start of a walk over a copy of the list with a number. -/
def ofCopy (lists : List (List Term)) (number : Nat) : Walk := on lists (lists.getD number []) 0 0

variable (lists : List (List Term)) (ts us : List Term) (i : Nat) (c : Int)

@[simp] theorem tokens_on : (on lists ts i c).tokens = ts := by
  simp [tokens, on]

@[simp] theorem write_on : (on lists ts i c).write us = on lists us i c := by
  simp [write, on]

@[simp] theorem index_on : (on lists ts i c).index = i := rfl

@[simp] theorem column_on : (on lists ts i c).column = c := rfl

@[simp] theorem forward_on (j : Nat) (d : Int) :
    { on lists ts i c with index := j, column := d } = on lists ts j d := rfl

end Walk

/-- The column that is put in after a token, if the tokens `ts` follow: that of a body. -/
def bodyColumn? (column : Int) (t : Term) (ts : List Term) : Option Int :=
  if isArrowToken t then (nextDent? ts).filter (column < ·) else none

/-- The column of the line, after a token has been read. -/
def columnAfter (column : Int) : Term → Int
  | .dent v => v
  | _ => column

/-- One round of the loop that adds columns. -/
def bodyRound (w : Walk) : Option Walk :=
  w.tokens[w.index]?.map fun t =>
    let next := { w with index := w.index + 1, column := columnAfter w.column t }
    match bodyColumn? w.column t (w.tokens.drop (w.index + 1)) with
    | some v => next.write (w.tokens.insertIdx (w.index + 1) (.dent v))
    | none => next

/-- Both tokens are columns. -/
def bothDents (t u : Term) : Bool := !isPlain t && !isPlain u

/-- One round of the loop that drops columns. -/
def mergeRound (w : Walk) : Option Walk :=
  match w.tokens[w.index]?, w.tokens[w.index + 1]? with
  | some t, some u =>
    if bothDents t u then some (w.write (w.tokens.eraseIdx w.index))
    else some { w with index := w.index + 1 }
  | _, _ => none

/-! ## 2. Adding columns

The state of the walk is split at the index, into what has been read and what has not.  A round reads one
token and may put a column into the second part, right at its front.  `addBodyDents` can be unfolded along the
same steps (`addBodyDents_cons`), so there are as many rounds as its result has tokens. -/

/-- What has not been read after a round that reads `t`, if it was `ts` before. -/
def unread (column : Int) (t : Term) (ts : List Term) : List Term :=
  match bodyColumn? column t ts with
  | some v => .dent v :: ts
  | none => ts

/-- **One round of the first loop.**  The index stands at `t`.  If a column has to follow it, it is put in
right after it, so that it is the next one that the index comes to. -/
theorem bodyRound_on (lists : List (List Term)) (read : List Term) (t : Term) (ts : List Term) (c : Int) :
    bodyRound (.on lists (read ++ t :: ts) read.length c) =
      some (.on lists (read ++ t :: unread c t ts) (read.length + 1) (columnAfter c t)) := by
  have hget : (read ++ t :: ts)[read.length]? = some t := by simp
  have hdrop : (read ++ t :: ts).drop (read.length + 1) = ts := by simp
  have hinsert : ∀ u : Term, (read ++ t :: ts).insertIdx (read.length + 1) u = read ++ t :: u :: ts := by
    intro u
    induction read with
    | nil => rfl
    | cons r read ih => exact congrArg (List.cons r) (ih (by simp) (by simp))
  simp only [bodyRound, Walk.tokens_on, Walk.index_on, Walk.column_on, hget, hdrop, Option.map_some, unread,
    Walk.forward_on]
  cases bodyColumn? c t ts with
  | none => rfl
  | some v => simp only [Walk.write_on, hinsert]

theorem bodyColumn?_eq_some_iff {c v : Int} {t : Term} {ts : List Term} :
    bodyColumn? c t ts = some v ↔ isArrowToken t = true ∧ nextDent? ts = some v ∧ c < v := by
  simp [bodyColumn?, Option.filter_eq_some_iff]

/-- **A round gives one token.**  What comes after it is made of the part that is left after the round. -/
theorem addBodyDents_cons (c : Int) (t : Term) (ts : List Term) :
    addBodyDents c (t :: ts) = t :: addBodyDents (columnAfter c t) (unread c t ts) := by
  cases t with
  | symbol s =>
    cases hv : bodyColumn? c (.symbol s) ts with
    | some v =>
      obtain ⟨hs, hnext, hlt⟩ := bodyColumn?_eq_some_iff.1 hv
      rw [addBodyDents_arrow hs hnext hlt, unread, hv]
      rfl
    | none =>
      have hdeeper : isArrow s = false ∨ ∀ v, nextDent? ts = some v → v ≤ c := by
        refine Classical.or_iff_not_imp_left.2 fun hs v hnext => Int.not_lt.1 fun hlt => ?_
        have harrow : isArrowToken (.symbol s) = true := Bool.of_not_eq_false hs
        cases hv.symm.trans (bodyColumn?_eq_some_iff.2 ⟨harrow, hnext, hlt⟩)
      rw [addBodyDents_symbol hdeeper, unread, hv]
      rfl
  | _ => rfl

/-- The loop that adds columns ends, from any place, after as many rounds as there are tokens to come. -/
theorem ends_bodyRound (lists : List (List Term)) (read ts : List Term) (c : Int) :
    ∃ c', Ends bodyRound (addBodyDents c ts).length (.on lists (read ++ ts) read.length c)
      (.on lists (read ++ addBodyDents c ts) (read ++ addBodyDents c ts).length c') := by
  -- by the number of rounds, since what has not been read may grow
  generalize hn : (addBodyDents c ts).length = n
  induction n generalizing read ts c with
  | zero =>
    cases ts with
    | nil =>
      simp only [addBodyDents, List.append_nil]
      exact ⟨c, .here (by simp [bodyRound])⟩
    | cons t ts =>
      rw [addBodyDents_cons] at hn
      cases hn
  | succ n ih =>
    cases ts with
    | nil => cases hn
    | cons t ts =>
      rw [addBodyDents_cons] at hn ⊢
      obtain ⟨c', h⟩ := ih (read ++ [t]) (unread c t ts) (columnAfter c t) (Nat.succ.inj hn)
      simp only [List.append_assoc, List.singleton_append, List.length_append, List.length_singleton] at h
      exact ⟨c', .round (bodyRound_on lists read t ts c) (by simpa [Nat.add_assoc] using h)⟩

/-- The second list is the first one with one more column after some of its arrows. -/
inductive Spread : List Term → List Term → Prop where
  | nil : Spread [] []
  | keep (t : Term) {ts us : List Term} (h : Spread ts us) : Spread (t :: ts) (t :: us)
  | body {s : String} (hs : isArrow s = true) (v : Int) {ts us : List Term} (h : Spread ts us) :
      Spread (.symbol s :: ts) (.symbol s :: .dent v :: us)

theorem spread_addBodyDents (c : Int) (ts : List Term) : Spread ts (addBodyDents c ts) := by
  fun_induction addBodyDents c ts with
  | case1 => exact .nil
  | case2 c v ts ih => exact .keep _ ih
  | case3 c s ts v hv hs ih => exact .body (Bool.and_eq_true_iff.1 hs).1 v ih
  | case4 c s ts v hv _ ih => exact .keep _ ih
  | case5 c s ts hv ih => exact .keep _ ih
  | case6 c t ts _ _ ih => exact .keep _ ih

/-- At most one column is put in for each arrow. -/
theorem Spread.length_le {ts us : List Term} (h : Spread ts us) :
    us.length ≤ ts.length + ts.countP isArrowToken := by
  induction h with
  | nil => exact Nat.le_refl 0
  | keep t _ ih =>
    rw [List.length_cons, List.length_cons, List.countP_cons]
    omega
  | @body s hs v ts us _ ih =>
    have harrow : isArrowToken (.symbol s) = true := hs
    rw [List.length_cons, List.length_cons, List.length_cons, List.countP_cons_of_pos harrow]
    omega

/-! ## 3. Dropping columns

A round either takes a token out of the list or moves the index on.  In both cases less is left, so the number
of rounds is one less than that of the tokens.  What is left of a run of columns is its last one, and this is
said with `List.splitBy`, which cuts a list into runs. -/

theorem collapseDents_singleton (t : Term) : collapseDents [t] = [t] := by
  cases t <;> rfl

theorem collapseDents_cons_cons {t u : Term} (h : bothDents t u = false) (ts : List Term) :
    collapseDents (t :: u :: ts) = t :: collapseDents (u :: ts) := by
  rcases isPlain_or_exists_dent t with ht | ⟨v, rfl⟩
  · exact collapseDents_plain ht _
  · have hu : isPlain u = true := by simpa [bothDents, isPlain] using h
    exact collapseDents_dent_plain v hu ts

theorem collapseDents_bothDents {t u : Term} (h : bothDents t u = true) (ts : List Term) :
    collapseDents (t :: u :: ts) = collapseDents (u :: ts) := by
  rcases isPlain_or_exists_dent t with ht | ⟨v, rfl⟩
  · simp [bothDents, ht] at h
  · rcases isPlain_or_exists_dent u with hu | ⟨w, rfl⟩
    · simp [bothDents, hu] at h
    · rfl

/-- **One round of the second loop.**  Of two columns the first one is taken out and the index stays;
otherwise the index moves on. -/
theorem mergeRound_on (lists : List (List Term)) (read : List Term) (t u : Term) (ts : List Term) (c : Int) :
    mergeRound (.on lists (read ++ t :: u :: ts) read.length c) =
      if bothDents t u then some (.on lists (read ++ u :: ts) read.length c)
      else some (.on lists (read ++ t :: u :: ts) (read.length + 1) c) := by
  have hfirst : (read ++ t :: u :: ts)[read.length]? = some t := by simp
  have hsecond : (read ++ t :: u :: ts)[read.length + 1]? = some u := by simp
  have herase : (read ++ t :: u :: ts).eraseIdx read.length = read ++ u :: ts := by
    simp [List.eraseIdx_append_of_length_le]
  simp only [mergeRound, Walk.tokens_on, Walk.index_on, hfirst, hsecond, herase, Walk.write_on]
  rfl

/-- The loop that drops columns ends, from any place: a round drops a token or passes it. -/
theorem ends_mergeRound (lists : List (List Term)) (read ts : List Term) (c : Int) :
    ∃ i, Ends mergeRound (ts.length - 1) (.on lists (read ++ ts) read.length c)
      (.on lists (read ++ collapseDents ts) i c) := by
  induction ts generalizing read with
  | nil =>
    have hend : mergeRound (.on lists (read ++ []) read.length c) = none := by simp [mergeRound]
    exact ⟨read.length, .here hend⟩
  | cons t ts ih =>
    cases ts with
    | nil =>
      have hend : mergeRound (.on lists (read ++ [t]) read.length c) = none := by simp [mergeRound]
      rw [collapseDents_singleton]
      exact ⟨read.length, .here hend⟩
    | cons u ts =>
      have hround := mergeRound_on lists read t u ts c
      by_cases hdents : bothDents t u = true
      · rw [if_pos hdents] at hround
        obtain ⟨i, h⟩ := ih read
        rw [collapseDents_bothDents hdents]
        exact ⟨i, .round hround h⟩
      · rw [if_neg hdents] at hround
        obtain ⟨i, h⟩ := ih (read ++ [t])
        rw [collapseDents_cons_cons (Bool.of_not_eq_true hdents)]
        simp only [List.append_assoc, List.singleton_append, List.length_append, List.length_singleton] at h
        exact ⟨i, .round hround h⟩

/-- The last of each run, with the run that is being collected and those before it. -/
theorem filterMap_getLast?_loop (ts : List Term) (t : Term) (run : List Term) (runs : List (List Term)) :
    (List.splitBy.loop bothDents ts t run runs).filterMap List.getLast? =
      runs.reverse.filterMap List.getLast? ++ collapseDents (t :: ts) := by
  induction ts generalizing t run runs with
  | nil =>
    have hloop : List.splitBy.loop bothDents [] t run runs = ((t :: run).reverse :: runs).reverse := rfl
    simp [hloop, collapseDents_singleton]
  | cons u ts ih =>
    have hloop : List.splitBy.loop bothDents (u :: ts) t run runs =
        bif bothDents t u then List.splitBy.loop bothDents ts u (t :: run) runs
        else List.splitBy.loop bothDents ts u [] ((t :: run).reverse :: runs) := rfl
    rw [hloop]
    cases hdents : bothDents t u with
    | true =>
      simp only [cond_true, ih, collapseDents_bothDents hdents]
    | false =>
      simp [ih, collapseDents_cons_cons hdents]

/-- **Of each run of columns the last one is kept**, and every other token is a run of its own. -/
theorem collapseDents_eq_filterMap (ts : List Term) :
    collapseDents ts = (ts.splitBy bothDents).filterMap List.getLast? := by
  cases ts with
  | nil => rfl
  | cons t ts => exact (filterMap_getLast?_loop ts t [] []).symm

/-- No two columns are left in a row. -/
theorem collapseDents_ne (ts us vs : List Term) (v w : Int) :
    collapseDents ts ≠ us ++ .dent v :: .dent w :: vs := by
  induction ts generalizing us with
  | nil => simp [collapseDents]
  | cons t ts ih =>
    cases ts with
    | nil =>
      intro h
      have hlength := congrArg List.length h
      rw [collapseDents_singleton, List.length_append] at hlength
      simp only [List.length_cons, List.length_nil] at hlength
      omega
    | cons u ts =>
      cases hdents : bothDents t u with
      | true =>
        rw [collapseDents_bothDents hdents]
        exact ih us
      | false =>
        rw [collapseDents_cons_cons hdents]
        intro h
        cases us with
        | nil =>
          obtain ⟨rfl, hrest⟩ := List.cons.inj h
          have hu : isPlain u = true := by simpa [bothDents, isPlain] using hdents
          rw [collapseDents_plain hu] at hrest
          obtain ⟨rfl, -⟩ := List.cons.inj hrest
          cases hu
        | cons r us => exact ih us (List.cons.inj h).2

/-! ## 4. Both loops -/

/-- **The loops end, with the lists that the functions make.**  The loop that adds columns to a copy of the
list with a number makes as many rounds as its result has tokens.  All lists that were there before stay as
they are, and the copy becomes what `addBodyDents` makes of the list: at most one column comes after each
arrow, and nothing else is added.  The loop that drops columns from a copy of that makes one round less than
there are tokens, and the copy becomes what `collapseDents` makes: of each run of columns the last one, so
that no two of them are next to each other. -/
theorem in_place (lists : List (List Term)) (number : Nat) :
    let ts := lists.getD number []
    let us := addBodyDents 0 ts
    (∃ w, Ends bodyRound us.length (.ofCopy lists number) w ∧ w.lists = lists ++ [us]) ∧
    Spread ts us ∧ us.length ≤ ts.length + ts.countP isArrowToken ∧
    (∃ w, Ends mergeRound (us.length - 1) (.ofCopy (lists ++ [us]) lists.length) w ∧
      w.lists = lists ++ [us] ++ [collapseDents us]) ∧
    collapseDents us = (us.splitBy bothDents).filterMap List.getLast? ∧
    ∀ before after v w, collapseDents us ≠ before ++ .dent v :: .dent w :: after := by
  intro ts us
  have hspread := spread_addBodyDents 0 ts
  obtain ⟨c, hbody⟩ := ends_bodyRound lists [] ts 0
  obtain ⟨i, hmerge⟩ := ends_mergeRound (lists ++ [us]) [] us 0
  have hcopy : Walk.ofCopy (lists ++ [us]) lists.length = .on (lists ++ [us]) us 0 0 := by
    simp [Walk.ofCopy]
  exact ⟨⟨_, hbody, rfl⟩, hspread, hspread.length_le, ⟨_, hcopy ▸ hmerge, rfl⟩,
    collapseDents_eq_filterMap us, fun before after v w => collapseDents_ne us before after v w⟩

end Layout

end Offside
