import Wetnork.Library.Outcome

/-! Recursion that is cut off: what a bound on the depth of the calls can change, and what the
calls must have cost when it is reached. The exception `cut` marks that it has been. -/
namespace Approximation

open Outcome

variable {ε σ α β : Type} {cut : ε} {x y : ExceptT ε (StateM σ) α}
  {f g : α → ExceptT ε (StateM σ) β}

theorem run_bind (x : ExceptT ε (StateM σ) α) (f : α → ExceptT ε (StateM σ) β) (s : σ) :
    (x >>= f).run s = match x.run s with
      | (.ok a, t) => (f a).run t
      | (.error e, t) => (.error e, t) := by
  change ExceptT.bindCont f (x.run s).1 (x.run s).2 = _
  rcases x.run s with ⟨r, t⟩
  cases r <;> rfl

theorem run_tryCatch (x : ExceptT ε (StateM σ) α) (g : ε → ExceptT ε (StateM σ) α) (s : σ) :
    (tryCatch x g).run s = match x.run s with
      | (.ok a, t) => (.ok a, t)
      | (.error e, t) => (g e).run t := by
  change (match (x.run s).1 with
    | .ok a => pure (.ok a)
    | .error e => (g e).run : StateM σ (Except ε α)) (x.run s).2 = _
  rcases x.run s with ⟨r, t⟩
  cases r <;> rfl

/-- `y` ends as `x` does, wherever `x` has not been cut off. -/
def Below (cut : ε) (x y : ExceptT ε (StateM σ) α) : Prop :=
  ∀ s, (x.run s).1 = .error cut ∨ y.run s = x.run s

theorem below_refl (x : ExceptT ε (StateM σ) α) : Below cut x x := fun _ => Or.inr rfl

theorem below_cut (y : ExceptT ε (StateM σ) α) : Below cut (throw cut) y := fun _ => Or.inl rfl

theorem below_bind (hx : Below cut x y) (hf : ∀ a, Below cut (f a) (g a)) :
    Below cut (x >>= f) (y >>= g) := by
  intro s
  rw [run_bind, run_bind]
  rcases hx s with h | h
  · left
    rcases hr : x.run s with ⟨r, t⟩
    rw [hr] at h
    obtain rfl : r = .error cut := h
    rfl
  · rw [h]
    rcases x.run s with ⟨r, t⟩
    cases r with
    | ok a => exact hf a t
    | error e => exact Or.inr rfl

theorem below_ite {c : Prop} [Decidable c] {x' y' : ExceptT ε (StateM σ) α}
    (hx : Below cut x x') (hy : Below cut y y') :
    Below cut (if c then x else y) (if c then x' else y') := by
  split
  · exact hx
  · exact hy

/-- The code behind a guard that throws. -/
theorem below_guard {c : Prop} [Decidable c] {e : ε} {x' y' : PUnit → ExceptT ε (StateM σ) α}
    (h : ∀ u, Below cut (x' u) (y' u)) :
    Below cut (if c then throw e >>= x' else x' ⟨⟩) (if c then throw e >>= y' else y' ⟨⟩) :=
  below_ite (below_bind (below_refl _) h) (h _)

/-- The handler must not take being cut off for something else. -/
theorem below_tryCatch {h : ε → ExceptT ε (StateM σ) α} (hx : Below cut x y)
    (hh : h cut = throw cut) : Below cut (tryCatch x h) (tryCatch y h) := by
  intro s
  rw [run_tryCatch, run_tryCatch]
  rcases hx s with hc | hc
  · left
    rcases hr : x.run s with ⟨r, t⟩
    rw [hr] at hc
    obtain rfl : r = .error cut := hc
    dsimp only
    rw [hh]
    rfl
  · exact Or.inr (by rw [hc])

section Cost

variable {m : σ → ℕ} {n k : ℕ}

/-- When the code is cut off, the measure `m` has gone up by `n`. -/
def Costs (cut : ε) (m : σ → ℕ) (n : ℕ) (x : ExceptT ε (StateM σ) α) : Prop :=
  ∀ s, (x.run s).1 = .error cut → m s + n ≤ m (x.run s).2

/-- What being cut off has cost, counted from an earlier state. -/
theorem ends_of_costs (h : Costs cut m n x) (s : σ) (hk : k ≤ m s + n) :
    Ends x s (fun _ _ => True) (fun e t => e = cut → k ≤ m t) := by
  have hs := h s
  unfold Ends
  rcases hr : x.run s with ⟨r, t⟩
  rw [hr] at hs
  cases r with
  | ok a => trivial
  | error e =>
    rintro rfl
    exact hk.trans (hs rfl)

theorem costs_of_ends
    (h : ∀ s, Ends x s (fun _ _ => True) (fun e t => e = cut → m s + n ≤ m t)) :
    Costs cut m n x := by
  intro s hs
  have hx := h s
  unfold Ends at hx
  rcases hr : x.run s with ⟨r, t⟩
  rw [hr] at hs hx
  obtain rfl : r = .error cut := hs
  exact hx rfl

theorem costs_le (h : Costs cut m n x) (hk : k ≤ n) : Costs cut m k x := by
  intro s hs
  have := h s hs
  omega

theorem costs_pure (a : α) : Costs cut m n (pure a : ExceptT ε (StateM σ) α) := by
  intro s hs
  cases hs

theorem costs_get : Costs cut m n (get : ExceptT ε (StateM σ) σ) := by
  intro s hs
  cases hs

theorem costs_modify (u : σ → σ) : Costs cut m n (modify u : ExceptT ε (StateM σ) Unit) := by
  intro s hs
  cases hs

theorem costs_throw {e : ε} (he : e ≠ cut) :
    Costs cut m n (throw e : ExceptT ε (StateM σ) α) := by
  intro s hs
  exact absurd (Except.error.inj hs) he

theorem costs_bind (hr : Raises m x) (hx : Costs cut m n x) (hf : ∀ a, Costs cut m n (f a)) :
    Costs cut m n (x >>= f) := by
  intro s hs
  rw [run_bind] at hs ⊢
  have hraise := hr s
  have hcost := hx s
  rcases hrun : x.run s with ⟨r, t⟩
  rw [hrun] at hs hraise hcost
  cases r with
  | ok a => exact (Nat.add_le_add_right hraise n).trans (hf a t hs)
  | error e =>
    have he : e = cut := Except.error.inj hs
    exact hcost (congrArg Except.error he)

theorem costs_ite {c : Prop} [Decidable c] (hx : Costs cut m n x) (hy : Costs cut m n y) :
    Costs cut m n (if c then x else y) := by
  split
  · exact hx
  · exact hy

theorem costs_guard {c : Prop} [Decidable c] {e : ε} {y' : PUnit → ExceptT ε (StateM σ) α}
    (he : e ≠ cut) (hy : ∀ u, Costs cut m n (y' u)) :
    Costs cut m n (if c then throw e >>= y' else y' ⟨⟩) :=
  costs_ite (costs_bind (raises_throw e) (costs_throw he) hy) (hy _)

theorem costs_tryCatch {h : ε → ExceptT ε (StateM σ) α} (hr : Raises m x)
    (hx : Costs cut m n x) (hh : h cut = throw cut) (hother : ∀ e, e ≠ cut → Costs cut m n (h e)) :
    Costs cut m n (tryCatch x h) := by
  intro s hs
  rw [run_tryCatch] at hs ⊢
  have hraise := hr s
  have hcost := hx s
  rcases hrun : x.run s with ⟨r, t⟩
  rw [hrun] at hs hraise hcost
  cases r with
  | ok a => cases hs
  | error e =>
    by_cases he : e = cut
    · subst he
      dsimp only
      rw [hh]
      exact hcost rfl
    · exact (Nat.add_le_add_right hraise n).trans (hother e he t hs)

end Cost

end Approximation
