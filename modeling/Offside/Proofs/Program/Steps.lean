import Offside.Program
import Offside.Proofs.Journal.Writable
/-!
# Programs and their journals

The steps of a program write to the journal, and a line that cannot be written ends the program.  Where
all lines can be written, the journal makes no difference: a step does what it would do without one, for
every filter and whatever is in the journal before (`Leads`).
-/

namespace Offside

namespace Program

open Term (WritableAll)

variable {α β : Type}

/-! ## 1. Steps

A step that fails leaves what it wrote before in the journal, so nothing is said about the journal itself,
only that it does not come into anything else. -/

/-- From a desk the step comes to this result and to another desk, whatever is in the journal. -/
def Leads (x : Step α) (d : Desk) (r : Except Error α) (d' : Desk) : Prop :=
  ∀ journal, ∃ journal', x.run ⟨d, journal⟩ = (r, ⟨d', journal'⟩)

theorem leads_pure (a : α) (d : Desk) : Leads (pure a) d (.ok a) d := fun journal => ⟨journal, rfl⟩

theorem leads_lift (x : Except Error α) (d : Desk) : Leads (liftM x) d x d :=
  fun journal => ⟨journal, rfl⟩

theorem Leads.bind {x : Step α} {g : α → Step β} {a : α} {r : Except Error β} {d d₁ d₂ : Desk}
    (hx : Leads x d (.ok a) d₁) (hg : Leads (g a) d₁ r d₂) : Leads (x >>= g) d r d₂ := by
  intro journal
  obtain ⟨journal₁, h₁⟩ := hx journal
  obtain ⟨journal₂, h₂⟩ := hg journal₁
  exact ⟨journal₂, by rw [run_bind, h₁]; exact h₂⟩

theorem Leads.bind_error {x : Step α} {g : α → Step β} {e : Error} {d d₁ : Desk}
    (hx : Leads x d (.error e) d₁) : Leads (x >>= g) d (.error e) d₁ := by
  intro journal
  obtain ⟨journal₁, h₁⟩ := hx journal
  exact ⟨journal₁, by rw [run_bind, h₁]⟩

/-- A step may look at how far the program has come. -/
theorem leads_get_bind {g : Progress → Step β} {r : Except Error β} {d d' : Desk}
    (h : ∀ journal, Leads (g ⟨d, journal⟩) d r d') : Leads (get >>= g) d r d' := by
  intro journal
  obtain ⟨journal', h'⟩ := h journal journal
  exact ⟨journal', by rw [run_bind]; exact h'⟩

/-- Lines that can be written can be written in a row. -/
theorem leads_forIn {bs : List β} {g : β → Step Unit} {d : Desk}
    (h : ∀ b ∈ bs, Leads (g b) d (.ok ()) d) :
    Leads (forIn bs () fun b _ => do g b; return .yield ()) d (.ok ()) d := by
  induction bs with
  | nil => exact leads_pure () d
  | cons b bs ih =>
    obtain ⟨hb, hbs⟩ := List.forall_mem_cons.1 h
    rw [List.forIn_cons]
    have hfirst : Leads (do g b; return ForInStep.yield ()) d (.ok (.yield ())) d :=
      hb.bind (leads_pure _ d)
    exact hfirst.bind (ih hbs)

variable (f : Journal.Filter)

theorem leads_note (path : List String) {text? : Unit → Option String} (h : ∃ s, text? () = some s)
    (d : Desk) : Leads (note f path text?) d (.ok ()) d := by
  obtain ⟨s, hs⟩ := h
  intro journal
  unfold note
  split
  · exact ⟨_, by rw [hs]; rfl⟩
  · exact ⟨journal, rfl⟩

theorem leads_noteTerm (path : List String) (lead : String) {t : Term} (ht : t.Writable) (d : Desk) :
    Leads (noteTerm f path lead t) d (.ok ()) d := by
  obtain ⟨s, hs⟩ := ht.plain?
  exact leads_note f path ⟨_, by rw [hs]; rfl⟩ d

theorem leads_atDesk {x : Typing α} {d d' : Desk} {r : Except Error α} (h : x.run d = (r, d')) :
    Leads (atDesk x) d r d' := by
  intro journal
  refine ⟨journal, ?_⟩
  show ((x.run d).1, (⟨(x.run d).2, journal⟩ : Progress)) = _
  rw [h]

/-! ## 2. Reading

Tokens, layout and passes, each with the lines that it writes.  The lines of the tokenizer and of the layout
show tokens and blocks of tokens; the lines about the passes show names of passes. -/

theorem leads_readTokens {source : String} {ts : List Term} (h : Lexer.tokens source = .ok ts)
    (hw : WritableAll ts) (d : Desk) : Leads (readTokens f source) d (.ok ts) d := by
  have hseq : (Term.seq ts).Writable := hw
  unfold readTokens
  rw [h]
  exact (leads_lift (.ok ts) d).bind ((leads_noteTerm f _ _ hseq d).bind (leads_pure ts d))

/-- Laying out writes what each of its three steps makes, and what happens in the last one.  If the tokens can
be written, so can all of this. -/
theorem leads_layOut {ts : List Term} (hw : WritableAll ts) (d : Desk) :
    Leads (layOut f ts) d (.ok (Layout.tree ts)) d := by
  have hdents : (Term.seq (Layout.addBodyDents 0 ts)).Writable := Layout.writable_addBodyDents hw
  have hmerged : (Term.seq (Layout.collapseDents (Layout.addBodyDents 0 ts))).Writable :=
    Layout.writable_collapseDents hdents
  have hevents := Layout.message?_of_mem_events 0 hmerged
  unfold layOut
  refine (leads_noteTerm f _ _ hdents d).bind ((leads_noteTerm f _ _ hmerged d).bind ?_)
  refine (leads_forIn fun e he => leads_note f _ (hevents e he) d).bind ?_
  exact (leads_noteTerm f _ _ (Layout.writable_blocks 0 hmerged) d).bind (leads_pure _ d)

/-- Each pass is announced by its name, which can always be written. -/
theorem leads_passes (ps : List Tree.Pass) (t : Term) (d : Desk) :
    Leads (ps.foldlM (fun t p => do
        note f ["ast", "rewrite"] fun _ => some ("aplying " ++ p.name)
        p.run t) t) d (ps.foldlM (fun t p => p.run t) t) d := by
  induction ps generalizing t with
  | nil => exact leads_pure t d
  | cons p ps ih =>
    have hfirst : Leads (do
        note f ["ast", "rewrite"] fun _ => some ("aplying " ++ p.name)
        p.run t) d (p.run t) d :=
      (leads_note f _ ⟨_, rfl⟩ d).bind (leads_lift (p.run t) d)
    simp only [List.foldlM_cons]
    cases hp : p.run t with
    | error e =>
      rw [hp] at hfirst
      exact hfirst.bind_error
    | ok t' =>
      rw [hp] at hfirst
      exact hfirst.bind (ih t')

/-- The lines about the passes can always be written. -/
theorem leads_makeTree (t : Term) (d : Desk) : Leads (makeTree f t) d (Tree.parse t) d := by
  have hfirst := leads_lift (Tree.Pass.nameParameters.run t) d
  unfold makeTree Tree.parse
  cases ht : Tree.Pass.nameParameters.run t with
  | error e =>
    rw [ht] at hfirst
    exact hfirst.bind_error
  | ok t' =>
    rw [ht] at hfirst
    exact hfirst.bind (leads_passes f Tree.passes t' d)

/-- **Reading with a journal.**  A text whose tokens can be written is read as without a journal. -/
theorem leads_read {source : String} {ts : List Term} (h : Lexer.tokens source = .ok ts)
    (hw : WritableAll ts) (d : Desk) : Leads (read f source) d (Tree.parse (Layout.tree ts)) d :=
  (leads_readTokens f h hw d).bind ((leads_layOut f hw d).bind (leads_makeTree f _ d))

/-! ## 3. Running

Lowering shows what it replaces, and that is a part of a tree that can be written.  The frame after the
statements is the one line that shows values, and for it there is a hypothesis. -/

/-- The lines about what is replaced can be written. -/
theorem leads_loweringNotes {t : Term} (ht : t.Writable) (d : Desk) :
    Leads (forIn (Tree.lowerings t) () fun n _ => do
      note f ["interpreter", "replace"] fun _ => Tree.loweringMessage? n
      return .yield ()) d (.ok ()) d := by
  have hnotes : ∀ n ∈ Tree.lowerings t, ∃ s, Tree.loweringMessage? n = some s := by
    intro n hn
    obtain ⟨s, hs⟩ := (Tree.writable_of_mem_lowerings ht n hn).plain?
    exact ⟨_, by rw [Tree.loweringMessage?, hs]; rfl⟩
  exact leads_forIn fun n hn => leads_note f _ (hnotes n hn) d

theorem leads_lowerTree {t t' : Term} (ht : t.Writable) (h : Tree.lower t = .ok t')
    (ht' : t'.Writable) (d : Desk) : Leads (lowerTree f t) d (.ok t') d := by
  unfold lowerTree
  refine (leads_loweringNotes f ht d).bind ?_
  rw [h]
  exact (leads_lift (.ok t') d).bind ((leads_noteTerm f _ _ ht' d).bind (leads_pure t' d))

theorem leads_evaluate {x : Eval α} {d : Desk} {w : World} {r : Except Error α}
    (h : x.run d.toWorld = (r, w)) : Leads (atDesk (Typing.evaluate x)) d r { d with toWorld := w } := by
  refine leads_atDesk ?_
  show ((x.run d.toWorld).1, ({ d with toWorld := (x.run d.toWorld).2 } : Desk)) = _
  rw [h]

/-- **Running with a journal.**  A tree that can be lowered, and that binds `main` in a frame that can be
written, is run as without a journal.  The lines about what is replaced and about the frame are the only ones
that a run writes, and both can be written. -/
theorem leads_runTree {t t' v : Term} {args : List String} {d : Desk} {w w' : World}
    {r : Except Error Int} (ht : t.Writable) (hlower : Tree.lower t = .ok t') (ht' : t'.Writable)
    (heval : t'.eval.run d.toWorld = (.ok v, w)) (hshown : ∃ s, w.scope.shown? = some s)
    (hmain : w.scope.top.names.contains "main" = true) (hcall : (callMain args).run w = (r, w')) :
    Leads (runTree f t args false) d r { d with toWorld := w' } := by
  obtain ⟨s, hs⟩ := hshown
  unfold runTree
  refine (leads_lowerTree f ht hlower ht' d).bind ?_
  refine (leads_pure t' d).bind ((leads_evaluate heval).bind (leads_get_bind fun journal => ?_))
  refine (leads_note f _ ⟨_, by rw [hs]; rfl⟩ _).bind ?_
  rw [if_neg (by rw [hmain]; decide)]
  exact leads_evaluate (d := { d with toWorld := w }) hcall

/-- A program is read and then run. -/
theorem leads_run {source : String} {t : Term} {args : List String} {d d' : Desk} {r : Except Error Int}
    (hread : Leads (read f source) d (.ok t) d) (hrun : Leads (runTree f t args false) d r d') :
    Leads (run f source args false) d r d' :=
  hread.bind hrun

end Program

end Offside
