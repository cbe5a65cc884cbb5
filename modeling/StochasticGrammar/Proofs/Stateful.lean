/-!
Programs that change a state and may fail. One that fails leaves the state as it is at that point.
-/

namespace StochasticGrammar

variable {ε σ α β : Type} {s s' : σ}

theorem run_bind (m : ExceptT ε (StateM σ) α) (f : α → ExceptT ε (StateM σ) β) (s : σ) :
    (m >>= f) s = match m s with
      | (.ok a, s) => f a s
      | (.error fault, s) => (.error fault, s) := by
  change (ExceptT.bind m f) s = _
  unfold ExceptT.bind ExceptT.mk
  change (StateT.bind m (ExceptT.bindCont f)) s = _
  unfold StateT.bind
  change (match m s with | (a, s) => ExceptT.bindCont f a s) = _
  cases m s with
  | mk result s => cases result <;> rfl

theorem bind_run_ok {m : ExceptT ε (StateM σ) α} {f : α → ExceptT ε (StateM σ) β} {b : β} :
    (m >>= f) s = (.ok b, s') ↔ ∃ a middle, m s = (.ok a, middle) ∧ f a middle = (.ok b, s') := by
  rw [run_bind]
  constructor
  · intro ran
    split at ran
    · rename_i a middle first
      exact ⟨a, middle, first, ran⟩
    · cases ran
  · rintro ⟨a, middle, first, second⟩
    rw [first]
    exact second

@[simp]
theorem run_get (s : σ) : (get : ExceptT ε (StateM σ) σ) s = (.ok s, s) := rfl

@[simp]
theorem run_modify (f : σ → σ) (s : σ) : (modify f : ExceptT ε (StateM σ) Unit) s = (.ok (), f s) := rfl

@[simp]
theorem run_throw (fault : ε) (s : σ) : (throw fault : ExceptT ε (StateM σ) α) s = (.error fault, s) := rfl

@[simp]
theorem run_pure (a : α) (s : σ) : (pure a : ExceptT ε (StateM σ) α) s = (.ok a, s) := rfl

end StochasticGrammar
