import Wetnork.Packet
import Wetnork.Library.Numerals

/-! `inet_pton` and `inet_ntop` for `AF_INET`: dotted quads. -/
namespace Wetnork.Inet

open Numerals

/-- The variables of the loop: the octets before `tp`, `*tp`, and the two flags. -/
structure Quad where
  tmp : List ℕ
  tp : ℕ
  sawDigit : Bool
  octets : ℕ
deriving DecidableEq, Repr

namespace Quad

/-- One character. An octet with a leading zero is rejected like one that is too large. -/
def step (q : Quad) (ch : Char) : Option Quad :=
  match digit? 10 ch with
  | some digit =>
    let new := q.tp * 10 + digit
    if q.sawDigit ∧ q.tp = 0 then none
    else if new > 255 then none
    else if q.sawDigit then some { q with tp := new }
    else if q.octets + 1 > 4 then none
    else some { q with tp := new, sawDigit := true, octets := q.octets + 1 }
  | none =>
    if ch = '.' ∧ q.sawDigit then
      if q.octets = 4 then none
      else some { tmp := q.tmp ++ [q.tp], tp := 0, sawDigit := false, octets := q.octets }
    else none

/-- The characters read so far. -/
def text (q : Quad) : List Char :=
  q.tmp.flatMap (fun octet => Nat.toDigits 10 octet ++ ['.']) ++
    if q.sawDigit then Nat.toDigits 10 q.tp else []

/-- What the loop keeps. -/
structure Reading (q : Quad) : Prop where
  octets : q.octets = q.tmp.length + if q.sawDigit then 1 else 0
  room : q.tmp.length ≤ 3
  small : ∀ octet ∈ q.tmp, octet ≤ 255
  current : q.tp ≤ 255
  fresh : q.sawDigit = false → q.tp = 0

end Quad

/-- `inet_pton(AF_INET, …)`: the four bytes, or `none` for a result other than 1. -/
def inetPton4 (src : List Char) : Option Bytes := do
  let q ← src.foldlM Quad.step ⟨[], 0, false, 0⟩
  if q.octets < 4 then none else some ((q.tmp ++ [q.tp]).map UInt8.ofNat)

/-- `inet_ntop(AF_INET, …)`: `%u.%u.%u.%u`. -/
def inetNtop4 : Bytes → List Char
  | [a, b, c, d] =>
    Nat.toDigits 10 a.toNat ++ '.' :: Nat.toDigits 10 b.toNat ++ '.' ::
      Nat.toDigits 10 c.toNat ++ '.' :: Nat.toDigits 10 d.toNat
  | _ => []

namespace Quad

variable {q r : Quad} {ch : Char} {digit : ℕ}

/-- What reading a digit takes and does. -/
theorem step_digit (hd : digit? 10 ch = some digit) (h : q.step ch = some r) :
    ¬ (q.sawDigit ∧ q.tp = 0) ∧ q.tp * 10 + digit ≤ 255 ∧
      ((q.sawDigit ∧ r = { q with tp := q.tp * 10 + digit }) ∨
        (q.sawDigit = false ∧ q.octets + 1 ≤ 4 ∧
          r = { q with tp := q.tp * 10 + digit, sawDigit := true, octets := q.octets + 1 })) := by
  simp only [step, hd] at h
  split at h
  · cases h
  · next hz =>
    split at h
    · cases h
    · next hle =>
      refine ⟨hz, Nat.not_lt.mp hle, ?_⟩
      split at h
      · next hs => exact Or.inl ⟨hs, (Option.some.inj h).symm⟩
      · next hs =>
        split at h
        · cases h
        · next ho =>
          exact Or.inr ⟨Bool.eq_false_of_not_eq_true hs, Nat.not_lt.mp ho,
            (Option.some.inj h).symm⟩

/-- What reading anything else takes and does. -/
theorem step_dot (hd : digit? 10 ch = none) (h : q.step ch = some r) :
    ch = '.' ∧ q.sawDigit ∧ q.octets ≠ 4 ∧
      r = { tmp := q.tmp ++ [q.tp], tp := 0, sawDigit := false, octets := q.octets } := by
  simp only [step, hd] at h
  split at h
  · next hc =>
    split at h
    · cases h
    · next ho => exact ⟨hc.1, hc.2, ho, (Option.some.inj h).symm⟩
  · cases h

/-- The loop knows exactly the text it has read. -/
theorem reading_step (hq : q.Reading) (h : q.step ch = some r) :
    r.Reading ∧ r.text = q.text ++ [ch] := by
  have ho := hq.octets
  cases hd : digit? 10 ch with
  | some digit =>
    have hlt := digit?_lt hd
    have hch := digitChar_of_digit?_ten hd
    obtain ⟨hz, hle, ⟨hs, rfl⟩ | ⟨hs, hfour, rfl⟩⟩ := step_digit hd h
    · have hpos : 0 < q.tp := Nat.pos_of_ne_zero fun hz' => hz ⟨hs, hz'⟩
      refine ⟨⟨ho, hq.room, hq.small, hle, fun hf => ?_⟩, ?_⟩
      · exact absurd (hs.symm.trans hf) (by decide)
      · simp only [text, if_pos hs, toDigits_concat (by decide) hpos hlt, hch, List.append_assoc]
    · rw [hq.fresh hs, Nat.zero_mul, Nat.zero_add] at hle ⊢
      rw [if_neg (by simp [hs])] at ho
      refine ⟨⟨?_, hq.room, hq.small, hle, nofun⟩, ?_⟩
      · simpa using ho
      · simp only [text, hs, if_true, Bool.false_eq_true, if_false, List.append_nil,
          Nat.toDigits_of_lt_base hlt, hch]
  | none =>
    obtain ⟨rfl, hs, hfour, rfl⟩ := step_dot hd h
    rw [if_pos hs] at ho
    have hroom := hq.room
    refine ⟨⟨?_, ?_, ?_, Nat.zero_le _, fun _ => rfl⟩, ?_⟩
    · simpa using ho
    · rw [List.length_append, List.length_singleton]
      omega
    · intro octet hmem
      rcases List.mem_append.mp hmem with hmem | hmem
      · exact hq.small octet hmem
      · rw [List.mem_singleton.mp hmem]
        exact hq.current
    · simp [text, hs]

theorem reading_run {src : List Char} (hq : q.Reading) (h : src.foldlM step q = some r) :
    r.Reading ∧ r.text = q.text ++ src := by
  induction src generalizing q with
  | nil =>
    obtain rfl : q = r := by simpa using h
    exact ⟨hq, (List.append_nil _).symm⟩
  | cons ch src ih =>
    rw [List.foldlM_cons] at h
    obtain ⟨t, ht, h⟩ := Option.bind_eq_some_iff.mp h
    obtain ⟨htq, htext⟩ := reading_step hq ht
    obtain ⟨hr, hrun⟩ := ih htq h
    exact ⟨hr, by rw [hrun, htext, List.append_assoc, List.singleton_append]⟩

/-- A printed octet is read back. -/
theorem read_octet {tmp : List ℕ} {n octets : ℕ} (hn : n ≤ 255) (ho : octets + 1 ≤ 4)
    (rest : List Char) :
    (Nat.toDigits 10 n ++ rest).foldlM step ⟨tmp, 0, false, octets⟩ =
      rest.foldlM step ⟨tmp, n, true, octets + 1⟩ := by
  revert hn rest
  refine toDigits_induction (by decide) (P := fun n text => n ≤ 255 → ∀ rest : List Char,
    (text ++ rest).foldlM step ⟨tmp, 0, false, octets⟩ =
      rest.foldlM step ⟨tmp, n, true, octets + 1⟩) ?_ ?_ n
  · intro d hd _ rest
    have hstep : step ⟨tmp, 0, false, octets⟩ d.digitChar = some ⟨tmp, d, true, octets + 1⟩ := by
      simp [step, digit?_digitChar (by decide) hd]
      omega
    rw [List.singleton_append, List.foldlM_cons, hstep]
    rfl
  · intro n d hpos hd ih hle rest
    have hstep : step ⟨tmp, n, true, octets + 1⟩ d.digitChar =
        some ⟨tmp, n * 10 + d, true, octets + 1⟩ := by
      simp [step, digit?_digitChar (by decide) hd]
      omega
    rw [List.append_assoc, ih (by omega), List.singleton_append, List.foldlM_cons, hstep]
    rfl

theorem read_dot {tmp : List ℕ} {n octets : ℕ} (ho : octets ≠ 4) (rest : List Char) :
    ('.' :: rest).foldlM step ⟨tmp, n, true, octets⟩ =
      rest.foldlM step ⟨tmp ++ [n], 0, false, octets⟩ := by
  have hstep : step ⟨tmp, n, true, octets⟩ '.' = some ⟨tmp ++ [n], 0, false, octets⟩ := by
    have hd : digit? 10 '.' = none := by decide
    simp [step, hd, ho]
  rw [List.foldlM_cons, hstep]
  rfl

end Quad

/-- What is printed is read back. -/
theorem inetPton4_inetNtop4 {bytes : Bytes} (h : bytes.length = 4) :
    inetPton4 (inetNtop4 bytes) = some bytes := by
  obtain ⟨a, b, c, d, rfl⟩ := List.length_eq_four.mp h
  have ha := a.toNat_lt
  have hb := b.toNat_lt
  have hc := c.toNat_lt
  have hd := d.toNat_lt
  have hlast : (Nat.toDigits 10 d.toNat ++ []).foldlM Quad.step
      ⟨[a.toNat, b.toNat, c.toNat], 0, false, 3⟩ = _ :=
    Quad.read_octet (by omega) (by omega) []
  rw [List.append_nil] at hlast
  have hrun : (inetNtop4 [a, b, c, d]).foldlM Quad.step ⟨[], 0, false, 0⟩ =
      some ⟨[a.toNat, b.toNat, c.toNat], d.toNat, true, 4⟩ := by
    simp only [inetNtop4, List.append_assoc, List.cons_append]
    rw [Quad.read_octet (by omega) (by omega), Quad.read_dot (by omega),
      Quad.read_octet (by omega) (by omega), Quad.read_dot (by omega),
      Quad.read_octet (by omega) (by omega), Quad.read_dot (by omega)]
    exact hlast
  simp [inetPton4, hrun]

/-- `inet_pton` takes for a dotted quad exactly what `inet_ntop` prints. -/
theorem inetPton4_eq_some_iff {src : List Char} {bytes : Bytes} :
    inetPton4 src = some bytes ↔ bytes.length = 4 ∧ src = inetNtop4 bytes := by
  constructor
  · intro h
    obtain ⟨q, hq, h⟩ := Option.bind_eq_some_iff.mp h
    obtain ⟨hr, htext⟩ := Quad.reading_run ⟨rfl, by simp, by simp, by simp, fun _ => rfl⟩ hq
    obtain ⟨tmp, tp, sawDigit, octets⟩ := q
    have ho := hr.octets
    have hroom := hr.room
    have hsmall := hr.small
    have hcurrent := hr.current
    dsimp only at h ho hroom hsmall hcurrent
    split at h
    · cases h
    · next hfour =>
      -- Four octets have been begun, so three are complete.
      have hs : sawDigit = true := by
        by_contra hs
        rw [if_neg hs] at ho
        omega
      subst hs
      rw [if_pos rfl] at ho
      obtain ⟨a, b, c, rfl⟩ := List.length_eq_three.mp (show tmp.length = 3 by omega)
      simp only [List.mem_cons, List.not_mem_nil, or_false, forall_eq_or_imp, forall_eq] at hsmall
      obtain rfl := Option.some.inj h
      refine ⟨rfl, ?_⟩
      simp only [Quad.text, if_true, Bool.false_eq_true, if_false, List.flatMap_nil,
        List.nil_append] at htext
      rw [← htext]
      have hn : ∀ n ≤ 255, (UInt8.ofNat n).toNat = n := fun n hn => by
        rw [UInt8.toNat_ofNat']
        exact Nat.mod_eq_of_lt (by omega)
      simp [inetNtop4, hn a hsmall.1, hn b hsmall.2.1, hn c hsmall.2.2, hn tp hcurrent]
  · rintro ⟨hlen, rfl⟩
    exact inetPton4_inetNtop4 hlen

end Wetnork.Inet
