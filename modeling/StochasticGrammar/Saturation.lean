/-!
Repeating a step while it makes room smaller. A step that only adds to a bounded collection, with
the free places as its room, is thus repeated until it adds nothing.
-/

namespace StochasticGrammar

def saturate {σ : Type} (step : σ → σ) (room : σ → Nat) (s : σ) : σ :=
  if room (step s) < room s then saturate step room (step s) else s
termination_by room s

theorem saturate_invariant {σ : Type} {step : σ → σ} {room : σ → Nat} {P : σ → Prop}
    (kept : ∀ s, P s → P (step s)) {s : σ} (start : P s) : P (saturate step room s) := by
  fun_induction saturate step room s with
  | case1 s _ ih => exact ih (kept s start)
  | case2 => exact start

theorem saturate_settled {σ : Type} (step : σ → σ) (room : σ → Nat) (s : σ) :
    room (saturate step room s) ≤ room (step (saturate step room s)) := by
  fun_induction saturate step room s with
  | case1 _ _ ih => exact ih
  | case2 s h => omega

end StochasticGrammar
