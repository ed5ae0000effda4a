import Wetnork.Library.Runs

/-! Refinement of an automaton: every word a system shows along a run is accepted. -/
namespace Simulation

variable {σ ε τ ω : Type*} {step : σ → ε → σ} {shows : σ → ε → List ω} {next : τ → ω → Option τ}
  {I : σ → Prop} {s : σ}

/-- What the steps of a run show, in order. -/
def trace (step : σ → ε → σ) (shows : σ → ε → List ω) : σ → List ε → List ω
  | _, [] => []
  | s, e :: events => shows s e ++ trace step shows (step s e) events

/-- Where a word leads an automaton that accepts it. -/
def accepts (next : τ → ω → Option τ) : τ → List ω → Option τ
  | t, [] => some t
  | t, o :: word => (next t o).bind fun t => accepts next t word

@[simp] theorem accepts_nil (t : τ) : accepts next t [] = some t := rfl

theorem accepts_cons {t u : τ} {o : ω} {word : List ω} (h : next t o = some u) :
    accepts next t (o :: word) = accepts next u word := by
  rw [accepts, h, Option.bind_some]

theorem accepts_append (t : τ) (word more : List ω) :
    accepts next t (word ++ more) = (accepts next t word).bind fun u => accepts next u more := by
  induction word generalizing t with
  | nil => rfl
  | cons o word ih =>
    rw [List.cons_append, accepts, accepts, Option.bind_assoc]
    exact congrArg _ (funext ih)

theorem trace_append (events more : List ε) :
    trace step shows s (events ++ more) =
      trace step shows s events ++ trace step shows (Runs.run step s events) more := by
  induction events generalizing s with
  | nil => rfl
  | cons e events ih => rw [List.cons_append, trace, trace, ih, List.append_assoc, Runs.run_cons]

/-- If each step is matched by the automaton under an invariant of the system, so is every run. -/
theorem accepts_trace (abs : σ → τ) (hI : ∀ s e, I s → I (step s e))
    (hsim : ∀ s e, I s → accepts next (abs s) (shows s e) = some (abs (step s e))) (hs : I s)
    (events : List ε) :
    accepts next (abs s) (trace step shows s events) = some (abs (Runs.run step s events)) := by
  induction events generalizing s with
  | nil => rfl
  | cons e events ih =>
    rw [trace, accepts_append, hsim s e hs]
    exact ih (hI s e hs)

/-- If in each step `f` rises by as much as `p` is shown and `q` is not, so it does along a run. -/
theorem countP_trace_le {f : σ → ℕ} {p q : ω → Bool}
    (h : ∀ s e, f s + (shows s e).countP p ≤ f (step s e) + (shows s e).countP q)
    (events : List ε) :
    f s + (trace step shows s events).countP p ≤
      f (Runs.run step s events) + (trace step shows s events).countP q := by
  induction events generalizing s with
  | nil => exact le_rfl
  | cons e events ih =>
    have hstep := h s e
    have hrest := ih (s := step s e)
    simp only [trace, List.countP_append, Runs.run_cons]
    omega

/-- A counter that wraps at `N` counts what is shown modulo `N`. -/
theorem countP_trace_mod {f : σ → ℕ} {p : ω → Bool} {N : ℕ}
    (h : ∀ s e, (f s + (shows s e).countP p) % N = f (step s e) % N) (events : List ε) :
    (f s + (trace step shows s events).countP p) % N = f (Runs.run step s events) % N := by
  induction events generalizing s with
  | nil => rfl
  | cons e events ih =>
    rw [Runs.run_cons, ← ih, trace, List.countP_append, ← Nat.add_assoc, Nat.add_mod, h s e,
      ← Nat.add_mod]

end Simulation
