import Mathlib.Tactic

/-! Finite runs of a total step function, and the invariant rules for them. -/
namespace Runs

variable {σ ε : Type*} {step : σ → ε → σ} {s : σ} {events : List ε} {I : σ → Prop}
  {P C V : σ → ε → Prop}

def run (step : σ → ε → σ) (s : σ) (events : List ε) : σ := events.foldl step s

@[simp] theorem run_nil : run step s [] = s := rfl

@[simp] theorem run_cons (e : ε) : run step s (e :: events) = run step (step s e) events := rfl

theorem run_append (more : List ε) :
    run step s (events ++ more) = run step (run step s events) more := List.foldl_append

/-- What the steps of this run preserve holds at its end. -/
theorem invariant_of_mem (h : ∀ e ∈ events, ∀ s, I s → I (step s e)) (hs : I s) :
    I (run step s events) := by
  induction events generalizing s with
  | nil => exact hs
  | cons e events ih =>
    exact ih (fun e' he' => h e' (List.mem_cons_of_mem e he')) (h e List.mem_cons_self s hs)

/-- What every step preserves holds at the end of every run. -/
theorem invariant (h : ∀ s e, I s → I (step s e)) (hs : I s) : I (run step s events) :=
  invariant_of_mem (fun e _ s => h s e) hs

/-- Each step of the run satisfies `P`, a property of the state it is taken in and its event. -/
def Along (step : σ → ε → σ) (P : σ → ε → Prop) : σ → List ε → Prop
  | _, [] => True
  | s, e :: events => P s e ∧ Along step P (step s e) events

theorem along_of_forall (h : ∀ s e, P s e) : Along step P s events := by
  induction events generalizing s with
  | nil => trivial
  | cons e events ih => exact ⟨h s e, ih⟩

/-- An invariant of the steps with `V` carries `P` along a run of such steps. -/
theorem along_of_invariant (h : ∀ s e, I s → V s e → P s e)
    (hstep : ∀ s e, I s → V s e → I (step s e)) (hs : I s) (hv : Along step V s events) :
    Along step P s events := by
  induction events generalizing s with
  | nil => trivial
  | cons e events ih => exact ⟨h s e hs hv.1, ih (hstep s e hs hv.1) hv.2⟩

/-- What steps with `V` preserve holds at the end of every run of such steps. -/
theorem invariant_along (h : ∀ s e, I s → V s e → I (step s e)) (hs : I s)
    (hv : Along step V s events) : I (run step s events) := by
  induction events generalizing s with
  | nil => exact hs
  | cons e events ih => exact ih (h s e hs hv.1) hv.2

/-- A run has `P` exactly as long as it has `C`, if `C` keeps an invariant under which the two
say the same of a step. -/
theorem along_iff (hiff : ∀ s e, I s → V s e → (P s e ↔ C s e))
    (hstep : ∀ s e, I s → V s e → C s e → I (step s e)) (hs : I s)
    (hv : Along step V s events) : Along step P s events ↔ Along step C s events := by
  induction events generalizing s with
  | nil => exact Iff.rfl
  | cons e events ih =>
    have he := hiff s e hs hv.1
    constructor
    · rintro ⟨hp, hps⟩
      have hc := he.mp hp
      exact ⟨hc, (ih (hstep s e hs hv.1 hc) hv.2).mp hps⟩
    · rintro ⟨hc, hcs⟩
      exact ⟨he.mpr hc, (ih (hstep s e hs hv.1 hc) hv.2).mpr hcs⟩

end Runs
