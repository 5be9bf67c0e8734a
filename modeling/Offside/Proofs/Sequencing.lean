import Offside.Error
/-!
# Steps in a row

Everything that can fail is written as steps in a row, of which the first failure ends the row.  There
are two kinds: those that only fail, and those that also change a state, which stays as it is when a step
fails.

What is known of the state before a step and after it, and of its failures, is said by `Ends`.
-/

namespace Offside

variable {α β : Type}

/-- Two steps that succeed succeed one by one. -/
theorem ok_of_bind {x : Except Error α} {f : α → Except Error β} {b : β} (h : x >>= f = .ok b) :
    ∃ a, x = .ok a ∧ f a = .ok b := by
  cases x with
  | error e => cases h
  | ok a => exact ⟨a, rfl, h⟩

/-- Of two steps that fail one fails. -/
theorem error_of_bind {x : Except Error α} {f : α → Except Error β} {e : Error}
    (h : x >>= f = .error e) : x = .error e ∨ ∃ a, x = .ok a ∧ f a = .error e := by
  cases x with
  | error e' =>
    cases h
    exact .inl rfl
  | ok a => exact .inr ⟨a, rfl, h⟩

/-- Two steps with a state: the second one is left out if the first one fails. -/
theorem run_bind {σ : Type} (x : ExceptT Error (StateM σ) α) (f : α → ExceptT Error (StateM σ) β)
    (s : σ) :
    (x >>= f).run s = match x.run s with
      | (.ok a, s') => (f a).run s'
      | (.error e, s') => (.error e, s') := by
  show (ExceptT.bind x f).run s = _
  simp only [ExceptT.bind, ExceptT.run, ExceptT.mk, bind, StateT.bind, ExceptT.bindCont]
  rcases x s with ⟨r, s'⟩
  cases r <;> rfl

theorem run_bind_of_ok {σ : Type} {x : ExceptT Error (StateM σ) α} {s s' : σ} {a : α}
    (h : x.run s = (.ok a, s')) (f : α → ExceptT Error (StateM σ) β) :
    (x >>= f).run s = (f a).run s' := by
  rw [run_bind, h]

/-- Two steps with a state that succeed succeed one by one. -/
theorem ok_of_run_bind {σ : Type} {x : ExceptT Error (StateM σ) α} {f : α → ExceptT Error (StateM σ) β}
    {s s'' : σ} {b : β} (h : (x >>= f).run s = (.ok b, s'')) :
    ∃ a s', x.run s = (.ok a, s') ∧ (f a).run s' = (.ok b, s'') := by
  rw [run_bind] at h
  rcases hx : x.run s with ⟨r, s'⟩
  rw [hx] at h
  cases r with
  | ok a => exact ⟨a, s', rfl, h⟩
  | error e => cases h

/-- What can only fail leaves the state as it is. -/
theorem ok_of_run_lift {σ : Type} {x : Except Error α} {s s' : σ} {a : α}
    (h : (liftM x : ExceptT Error (StateM σ) α).run s = (.ok a, s')) : x = .ok a ∧ s' = s := by
  cases x with
  | ok b =>
    obtain ⟨ha, rfl⟩ := Prod.mk.inj h
    exact ⟨ha, rfl⟩
  | error e => cases h

/-- Looking at the state leaves it as it is. -/
theorem run_get_bind {σ : Type} (f : σ → ExceptT Error (StateM σ) β) (s : σ) :
    (get >>= f).run s = (f s).run s := rfl

theorem run_modify_bind {σ : Type} (g : σ → σ) (f : PUnit → ExceptT Error (StateM σ) β) (s : σ) :
    (modify g >>= f).run s = (f ⟨⟩).run (g s) := rfl

/-- From a state with `P` the step fails with `A`, or it ends with `Q`. -/
def Ends {σ : Type} (A : Error → Prop) (P : σ → Prop) (x : ExceptT Error (StateM σ) α)
    (Q : α → σ → Prop) : Prop :=
  ∀ s, P s → match x.run s with
    | (.ok a, s') => Q a s'
    | (.error e, _) => A e

section Ends

variable {σ : Type} {A : Error → Prop} {P : σ → Prop}

theorem ends_pure {a : α} {Q : α → σ → Prop} (h : ∀ s, P s → Q a s) : Ends A P (pure a) Q := h

theorem ends_throw {e : Error} (h : A e) (Q : α → σ → Prop) : Ends A P (throw e) Q := fun _ _ => h

theorem Ends.imp {A' : Error → Prop} {x : ExceptT Error (StateM σ) α} {Q Q' : α → σ → Prop}
    (h : Ends A P x Q) (hA : ∀ e, A e → A' e) (hQ : ∀ a s, Q a s → Q' a s) : Ends A' P x Q' := by
  intro s hs
  have hrun := h s hs
  rcases hr : x.run s with ⟨_ | a, s'⟩
  all_goals rw [hr] at hrun
  · exact hA _ hrun
  · exact hQ a s' hrun

/-- Triples are put together as usual: what holds after the first step is what the second one starts from. -/
theorem Ends.bind {x : ExceptT Error (StateM σ) α} {f : α → ExceptT Error (StateM σ) β}
    {Q : α → σ → Prop} {R : β → σ → Prop} (hx : Ends A P x Q) (hf : ∀ a, Ends A (Q a) (f a) R) :
    Ends A P (x >>= f) R := by
  intro s hs
  have h := hx s hs
  rw [run_bind]
  rcases hr : x.run s with ⟨r, s'⟩
  rw [hr] at h
  cases r with
  | ok a => exact hf a s' h
  | error e => exact h

theorem ends_get : Ends A P (get : ExceptT Error (StateM σ) σ) fun _ => P := fun _ h => h

/-- What is known apart from the state can be taken out. -/
theorem ends_and {p : Prop} {x : ExceptT Error (StateM σ) α} {Q : α → σ → Prop} (h : p → Ends A P x Q) :
    Ends A (fun s => p ∧ P s) x Q :=
  fun s hs => h hs.1 s hs.2

theorem ends_lift {x : Except Error α} {Q : α → σ → Prop} (hok : ∀ a, x = .ok a → ∀ s, P s → Q a s)
    (herror : ∀ e, x = .error e → A e) : Ends A P (liftM x) Q := by
  cases x with
  | ok a => exact ends_pure (hok a rfl)
  | error e => exact ends_throw (herror e rfl) Q

end Ends

end Offside
