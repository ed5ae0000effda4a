import Mathlib.Tactic

/-! Numerals as texts: reading digits off characters, against the digits that `Nat.toDigits`
prints. -/
namespace Numerals

/-- The value of a character as a digit of a base up to sixteen, in either case. -/
def digit? (base : ℕ) (c : Char) : Option ℕ :=
  let digit :=
    if '0' ≤ c ∧ c ≤ '9' then c.toNat - '0'.toNat
    else if 'a' ≤ c ∧ c ≤ 'f' then c.toNat - 'a'.toNat + 10
    else if 'A' ≤ c ∧ c ≤ 'F' then c.toNat - 'A'.toNat + 10
    else base
  if digit < base then some digit else none

/-- The number that a sequence of digits adds up to, most significant digit first. -/
def value (base : ℕ) (text : List Char) : ℕ :=
  text.foldl (fun n c => n * base + (digit? base c).getD 0) 0

variable {base n d : ℕ} {c : Char} {text : List Char}

theorem digit?_lt (h : digit? base c = some d) : d < base := by
  simp only [digit?, Option.ite_none_right_eq_some, Option.some.injEq] at h
  omega

theorem digit?_digitChar (hb : base ≤ 16) (h : n < base) : digit? base n.digitChar = some n := by
  have hn : n < 16 := by omega
  interval_cases n <;> simp [digit?, Nat.digitChar, h]

theorem digitChar_of_digit?_ten (h : digit? 10 c = some d) : c = d.digitChar := by
  simp only [digit?, Option.ite_none_right_eq_some, Option.some.injEq] at h
  obtain ⟨hlt, rfl⟩ := h
  split at hlt
  · next hc =>
    have hlow : 48 ≤ c.toNat := hc.1
    have hhigh : c.toNat ≤ 57 := hc.2
    rw [if_pos hc]
    apply Char.toNat_inj.mp
    rw [Nat.toNat_digitChar_of_lt_ten hlt]
    change c.toNat = 48 + (c.toNat - 48)
    omega
  · split at hlt
    · omega
    · split at hlt <;> omega

theorem value_concat (text : List Char) (c : Char) :
    value base (text ++ [c]) = value base text * base + (digit? base c).getD 0 := by
  simp [value]

theorem value_lt {base : ℕ} (hb : 0 < base) (text : List Char) :
    value base text < base ^ text.length := by
  induction text using List.reverseRecOn with
  | nil => exact Nat.one_pos
  | append_singleton text c ih =>
    have hd : (digit? base c).getD 0 < base := by
      cases hc : digit? base c with
      | none => exact hb
      | some d => exact digit?_lt hc
    rw [value_concat, List.length_append, List.length_singleton, Nat.pow_succ]
    calc value base text * base + (digit? base c).getD 0
        < value base text * base + base := by omega
      _ = (value base text + 1) * base := by ring
      _ ≤ base ^ text.length * base := Nat.mul_le_mul_right base ih

/-- The digits of a number grow at their end. -/
theorem toDigits_concat (hb : 1 < base) (hn : 0 < n) (hd : d < base) :
    Nat.toDigits base (n * base + d) = Nat.toDigits base n ++ [d.digitChar] := by
  rw [Nat.mul_comm, ← Nat.toDigits_append_toDigits hb hn hd, Nat.toDigits_of_lt_base hd]

/-- Printed numbers, one digit after the other. -/
theorem toDigits_induction (hb : 1 < base) {P : ℕ → List Char → Prop}
    (one : ∀ d, d < base → P d [d.digitChar])
    (more : ∀ n d, 0 < n → d < base → P n (Nat.toDigits base n) →
      P (n * base + d) (Nat.toDigits base n ++ [d.digitChar])) (n : ℕ) :
    P n (Nat.toDigits base n) := by
  induction n using Nat.strong_induction_on with
  | _ n ih =>
    by_cases h : n < base
    · rw [Nat.toDigits_of_lt_base h]
      exact one n h
    · have hpos : 0 < n / base := Nat.div_pos (by omega) (by omega)
      have := more (n / base) (n % base) hpos (Nat.mod_lt n (by omega))
        (ih _ (Nat.div_lt_self (by omega) hb))
      rwa [Nat.div_add_mod', ← Nat.toDigits_of_base_le hb (by omega)] at this

theorem value_toDigits (hb : 1 < base) (hs : base ≤ 16) (n : ℕ) :
    value base (Nat.toDigits base n) = n := by
  refine toDigits_induction hb (P := fun n text => value base text = n) ?_ ?_ n
  · intro d hd
    simp [value, digit?_digitChar hs hd]
  · intro n d _ hd ih
    rw [value_concat, ih, digit?_digitChar hs hd, Option.getD_some]

theorem isSome_of_mem_toDigits (hb : 1 < base) (hs : base ≤ 16) (h : c ∈ Nat.toDigits base n) :
    (digit? base c).isSome := by
  revert h
  refine toDigits_induction hb (P := fun _ text => c ∈ text → (digit? base c).isSome) ?_ ?_ n
  · intro d hd hc
    rw [List.mem_singleton.mp hc, digit?_digitChar hs hd]
    rfl
  · intro n d _ hd ih hc
    rcases List.mem_append.mp hc with hc | hc
    · exact ih hc
    · rw [List.mem_singleton.mp hc, digit?_digitChar hs hd]
      rfl

end Numerals
