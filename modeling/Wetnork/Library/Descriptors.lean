import Wetnork.Library.Store

/-! Numbers of open files, as an operating system hands them out and takes them back. -/
namespace Descriptors

open Store (update_some_iff update_none_iff)

variable {α ι : Type*}

/-- What each open number was opened for, and how often a number was closed that was not open. -/
@[ext] structure Table (α : Type*) where
  file : ℕ → Option α
  stray : ℕ

namespace Table

def empty : Table α := ⟨fun _ => none, 0⟩

def opened (t : Table α) (n : ℕ) (a : α) : Table α :=
  { t with file := Function.update t.file n (some a) }

def close (t : Table α) (n : ℕ) : Table α :=
  match t.file n with
  | some _ => { t with file := Function.update t.file n none }
  | none => { t with stray := t.stray + 1 }

/-- Closing a number that was just handed out undoes the opening. -/
theorem close_opened {t : Table α} {n : ℕ} (a : α) (h : t.file n = none) :
    (t.opened n a).close n = t := by
  ext1
  · simp [opened, close, ← h]
  · simp [opened, close]

@[simp] theorem opened_opened (t : Table α) (n : ℕ) (a b : α) :
    (t.opened n a).opened n b = t.opened n b := by
  simp [opened]

theorem file_opened {t : Table α} {n m : ℕ} {a : α} :
    (t.opened n a).file m ≠ none ↔ m = n ∨ t.file m ≠ none := by
  by_cases h : m = n
  · simp [opened, h]
  · simp [opened, h]

theorem file_close {t : Table α} {n m : ℕ} :
    (t.close n).file m ≠ none ↔ m ≠ n ∧ t.file m ≠ none := by
  cases hn : t.file n with
  | none =>
    by_cases h : m = n
    · simp [close, h, hn]
    · simp [close, hn, h]
  | some a =>
    by_cases h : m = n
    · simp [close, h, hn]
    · simp [close, hn, h]

theorem opened_ne {t : Table α} {n : ℕ} {a : α} (h : t.file n = none) : t.opened n a ≠ t := by
  intro he
  have hn := congrFun (congrArg file he) n
  simp [opened, h] at hn

end Table

/-- Every open number has one holder, every number that is held is open, and none was closed that
was not. -/
structure Owned (t : Table α) (holds : ι → Option ℕ) : Prop where
  isOpen : ∀ i n, holds i = some n → t.file n ≠ none
  held : ∀ n, t.file n ≠ none → ∃ i, holds i = some n
  unique : ∀ i j n, holds i = some n → holds j = some n → i = j
  noStray : t.stray = 0

namespace Owned

variable [DecidableEq ι] {t : Table α} {holds : ι → Option ℕ} {i j : ι} {n : ℕ}

/-- A number that was just handed out gets a holder. -/
theorem opened (h : Owned t holds) (hn : t.file n = none) (hi : holds i = none) (a : α) :
    Owned (t.opened n a) (Function.update holds i (some n)) where
  isOpen k m hk := by
    rw [Table.file_opened]
    rcases update_some_iff.mp hk with ⟨-, rfl⟩ | ⟨-, hk⟩
    · exact .inl rfl
    · exact .inr (h.isOpen k m hk)
  held m hm := by
    rcases Table.file_opened.mp hm with rfl | hm
    · exact ⟨i, Function.update_self ..⟩
    · obtain ⟨k, hk⟩ := h.held m hm
      have hne : k ≠ i := by
        rintro rfl
        simp [hi] at hk
      exact ⟨k, by rwa [Function.update_of_ne hne]⟩
  unique k l m hk hl := by
    have hfree : ∀ k, holds k ≠ some n := fun k hk => h.isOpen k n hk hn
    rcases update_some_iff.mp hk with ⟨rfl, rfl⟩ | ⟨-, hk'⟩
    · rcases update_some_iff.mp hl with ⟨rfl, -⟩ | ⟨-, hl'⟩
      · rfl
      · exact absurd hl' (hfree l)
    · rcases update_some_iff.mp hl with ⟨rfl, rfl⟩ | ⟨-, hl'⟩
      · exact absurd hk' (hfree k)
      · exact h.unique k l m hk' hl'
  noStray := h.noStray

/-- A holder closes its number and forgets it. -/
theorem closed (h : Owned t holds) (hi : holds i = some n) :
    Owned (t.close n) (Function.update holds i none) where
  isOpen k m hk := by
    obtain ⟨hki, hk⟩ := update_none_iff.mp hk
    refine Table.file_close.mpr ⟨?_, h.isOpen k m hk⟩
    rintro rfl
    exact hki (h.unique k i m hk hi)
  held m hm := by
    obtain ⟨hmn, hm⟩ := Table.file_close.mp hm
    obtain ⟨k, hk⟩ := h.held m hm
    have hne : k ≠ i := by
      rintro rfl
      exact hmn (Option.some.inj (hk.symm.trans hi))
    exact ⟨k, by rwa [Function.update_of_ne hne]⟩
  unique k l m hk hl := h.unique k l m (update_none_iff.mp hk).2 (update_none_iff.mp hl).2
  noStray := by
    obtain ⟨a, ha⟩ := Option.ne_none_iff_exists'.mp (h.isOpen i n hi)
    simp [Table.close, ha, h.noStray]

/-- What one holder has goes to another one that has nothing. -/
theorem handedOver (h : Owned t holds) (hj : holds j = none) :
    Owned t (Function.update (Function.update holds i none) j (holds i)) := by
  have hiff : ∀ k m, Function.update (Function.update holds i none) j (holds i) k = some m ↔
      holds (Equiv.swap i j k) = some m := by
    intro k m
    by_cases hkj : k = j
    · subst hkj
      simp
    · by_cases hki : k = i
      · subst hki
        simp [hkj, hj]
      · simp [hkj, hki, Equiv.swap_apply_of_ne_of_ne hki hkj]
  constructor
  · intro k m hk
    exact h.isOpen _ m ((hiff k m).mp hk)
  · intro m hm
    obtain ⟨k, hk⟩ := h.held m hm
    exact ⟨Equiv.swap i j k, (hiff _ m).mpr (by rwa [Equiv.swap_apply_self])⟩
  · intro k l m hk hl
    exact (Equiv.swap i j).injective (h.unique _ _ m ((hiff k m).mp hk) ((hiff l m).mp hl))
  · exact h.noStray

end Owned

theorem owned_empty : Owned (Table.empty : Table α) fun _ : ι => none where
  isOpen := by simp
  held := by simp [Table.empty]
  unique := by simp
  noStray := rfl

end Descriptors
