import Mathlib.Tactic

/-! Objects at addresses: what is stored where after one address has been written. -/
namespace Store

variable {ι α : Type*} [DecidableEq ι] {store : ι → Option α} {i j : ι} {a b : α}

theorem update_some_iff :
    Function.update store i (some a) j = some b ↔ (j = i ∧ a = b) ∨ (j ≠ i ∧ store j = some b) := by
  by_cases h : j = i
  · subst h
    simp
  · simp [h]

theorem update_none_iff :
    Function.update store i none j = some b ↔ j ≠ i ∧ store j = some b := by
  by_cases h : j = i
  · subst h
    simp
  · simp [h]

section Counter

-- Addresses are given out in order, and nothing is at those from `k` on.
variable {store : ℕ → Option α} {i j k : ℕ}

theorem lt_of_unused (h : ∀ i, k ≤ i → store i = none) (hi : store i = some a) : i < k := by
  by_contra hle
  rw [h i (Nat.not_lt.mp hle)] at hi
  cases hi

theorem unused_placed (h : ∀ i, k ≤ i → store i = none) (x : Option α) (hi : k + 1 ≤ i) :
    Function.update store k x i = none := by
  rw [Function.update_of_ne (by omega)]
  exact h i (by omega)

theorem unused_written (h : ∀ i, k ≤ i → store i = none) (hj : j < k) (x : Option α) (hi : k ≤ i) :
    Function.update store j x i = none := by
  rw [Function.update_of_ne (by omega)]
  exact h i hi

end Counter

end Store
