import Mathlib.Tactic

/-! Postconditions for stateful code that may throw, with the state kept across the throw. -/
namespace Outcome

variable {ε σ α β : Type} {s : σ} {x : ExceptT ε (StateM σ) α} {f : α → ExceptT ε (StateM σ) β}
  {Q Q' : α → σ → Prop} {E E' : ε → σ → Prop}

/-- Run from `s`, the code returns into `Q` or throws into `E`. -/
def Ends (x : ExceptT ε (StateM σ) α) (s : σ) (Q : α → σ → Prop) (E : ε → σ → Prop) : Prop :=
  match x.run s with
  | (.ok a, t) => Q a t
  | (.error e, t) => E e t

theorem ends_mono (h : Ends x s Q E) (hq : ∀ a t, Q a t → Q' a t) (he : ∀ e t, E e t → E' e t) :
    Ends x s Q' E' := by
  unfold Ends at h ⊢
  rcases hx : x.run s with ⟨r, t⟩
  rw [hx] at h
  cases r with
  | ok a => exact hq a t h
  | error e => exact he e t h

/-- A postcondition that does not depend on how the code ends is one of the final state. -/
theorem ends_const {P : σ → Prop} : Ends x s (fun _ => P) (fun _ => P) ↔ P (x.run s).2 := by
  unfold Ends
  rcases x.run s with ⟨r, t⟩
  cases r <;> rfl

@[simp] theorem ends_pure {a : α} :
    Ends (pure a : ExceptT ε (StateM σ) α) s Q E ↔ Q a s := Iff.rfl

@[simp] theorem ends_throw {e : ε} :
    Ends (throw e : ExceptT ε (StateM σ) α) s Q E ↔ E e s := Iff.rfl

@[simp] theorem ends_get {Q : σ → σ → Prop} :
    Ends (get : ExceptT ε (StateM σ) σ) s Q E ↔ Q s s := Iff.rfl

@[simp] theorem ends_modify {g : σ → σ} {Q : Unit → σ → Prop} :
    Ends (modify g : ExceptT ε (StateM σ) Unit) s Q E ↔ Q () (g s) := Iff.rfl

@[simp] theorem ends_bind {Q : β → σ → Prop} :
    Ends (x >>= f) s Q E ↔ Ends x s (fun a t => Ends (f a) t Q E) E := by
  unfold Ends
  change (match ExceptT.bindCont f (x.run s).1 (x.run s).2 with
    | (.ok a, t) => Q a t
    | (.error e, t) => E e t) ↔ _
  rcases x.run s with ⟨r, t⟩
  cases r <;> rfl

@[simp] theorem ends_ite {c : Prop} [Decidable c] {y : ExceptT ε (StateM σ) α} :
    Ends (if c then x else y) s Q E ↔ (c → Ends x s Q E) ∧ (¬ c → Ends y s Q E) := by
  by_cases h : c <;> simp [h]

@[simp] theorem ends_tryCatch {g : ε → ExceptT ε (StateM σ) α} :
    Ends (tryCatch x g) s Q E ↔ Ends x s Q (fun e t => Ends (g e) t Q E) := by
  unfold Ends
  have h : (tryCatch x g).run s = match x.run s with
      | (.ok a, t) => (.ok a, t)
      | (.error e, t) => (g e).run t := by
    change (match (x.run s).1 with
      | .ok a => pure (.ok a)
      | .error e => (g e).run : StateM σ (Except ε α)) (x.run s).2 = _
    rcases x.run s with ⟨r, t⟩
    cases r <;> rfl
  rw [h]
  rcases x.run s with ⟨r, t⟩
  cases r <;> rfl

/-- A condition that holds where the code returns and fails where it throws decides between the
two. -/
theorem returns_iff {P : Prop} (h : Ends x s (fun _ _ => P) fun _ _ => ¬ P) :
    (∃ a, (x.run s).1 = .ok a) ↔ P := by
  unfold Ends at h
  rcases hx : x.run s with ⟨r, t⟩
  rw [hx] at h
  cases r with
  | ok a => exact ⟨fun _ => h, fun _ => ⟨a, rfl⟩⟩
  | error e =>
    constructor
    · rintro ⟨a, ha⟩
      cases ha
    · intro hp
      exact absurd hp h

section Measure

variable {μ : Type} [Preorder μ] {f : σ → μ}

/-- The code never lowers the measure `f` of the state, however it ends. -/
def Raises (f : σ → μ) (x : ExceptT ε (StateM σ) α) : Prop := ∀ s, f s ≤ f (x.run s).2

theorem ends_of_raises (h : Raises f x) (s : σ) :
    Ends x s (fun _ t => f s ≤ f t) (fun _ t => f s ≤ f t) := ends_const.mpr (h s)

theorem raises_of_ends (h : ∀ s, Ends x s (fun _ t => f s ≤ f t) fun _ t => f s ≤ f t) :
    Raises f x := fun s => ends_const.mp (h s)

theorem raises_pure (a : α) : Raises f (pure a : ExceptT ε (StateM σ) α) := fun _ => le_rfl

theorem raises_throw (e : ε) : Raises f (throw e : ExceptT ε (StateM σ) α) := fun _ => le_rfl

theorem raises_get : Raises f (get : ExceptT ε (StateM σ) σ) := fun _ => le_rfl

theorem raises_modify {g : σ → σ} (h : ∀ s, f s ≤ f (g s)) :
    Raises f (modify g : ExceptT ε (StateM σ) Unit) := h

theorem raises_bind {y : α → ExceptT ε (StateM σ) β} (hx : Raises f x) (hy : ∀ a, Raises f (y a)) :
    Raises f (x >>= y) := by
  apply raises_of_ends
  intro s
  rw [ends_bind]
  refine ends_mono (ends_of_raises hx s) (fun a t ht => ?_) (fun _ _ ht => ht)
  exact ends_mono (ends_of_raises (hy a) t) (fun _ _ hu => ht.trans hu) (fun _ _ hu => ht.trans hu)

theorem raises_ite {c : Prop} [Decidable c] {y : ExceptT ε (StateM σ) α} (hx : Raises f x)
    (hy : Raises f y) : Raises f (if c then x else y) := by
  split
  · exact hx
  · exact hy

/-- The code behind a guard that throws. -/
theorem raises_guard {c : Prop} [Decidable c] {e : ε} {y : PUnit → ExceptT ε (StateM σ) α}
    (hy : ∀ u, Raises f (y u)) : Raises f (if c then throw e >>= y else y ⟨⟩) :=
  raises_ite (raises_bind (raises_throw e) hy) (hy _)

theorem raises_tryCatch {g : ε → ExceptT ε (StateM σ) α} (hx : Raises f x)
    (hg : ∀ e, Raises f (g e)) : Raises f (tryCatch x g) := by
  apply raises_of_ends
  intro s
  rw [ends_tryCatch]
  refine ends_mono (ends_of_raises hx s) (fun _ _ ht => ht) (fun e t ht => ?_)
  exact ends_mono (ends_of_raises (hg e) t) (fun _ _ hu => ht.trans hu) (fun _ _ hu => ht.trans hu)

end Measure

end Outcome
