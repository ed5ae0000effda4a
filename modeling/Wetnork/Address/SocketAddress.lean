import Wetnork.Address.IPAddress

/-! `SocketAddress`: the native socket address of either family, and its comparisons. -/
namespace Wetnork

/-- The union is as long as `sockaddr_in6`. Behind the family, which both layouts begin with, it
holds 26 more bytes; the constructors clear it before they copy a `sockaddr_in` of 16 into it. -/
@[ext] structure SocketAddress where
  family : AddressFamily
  rest : Bytes
  length_rest : rest.length = 26
  cleared : family = .ipv4 → rest.drop 14 = List.replicate 12 0
deriving DecidableEq, Repr

namespace SocketAddress

variable {order : ByteOrder} {a b c : SocketAddress}

/-- The bytes behind `native()`; the family is an `unsigned short`. -/
def native (order : ByteOrder) (a : SocketAddress) : Bytes :=
  order.arrange [0, a.family.native] ++ a.rest

def nativeLen (a : SocketAddress) : ℕ :=
  match a.family with
  | .ipv4 => 16
  | .ipv6 => 28

/-- `operator<`, which converts what it computes to `bool`. -/
def less (order : ByteOrder) (lhs rhs : SocketAddress) : Bool :=
  let result :=
    if lhs.nativeLen < rhs.nativeLen then
      -1
    else
      memcmp (lhs.native order) (rhs.native order) lhs.nativeLen
  result ≠ 0

/-- `operator==` -/
def equal (order : ByteOrder) (lhs rhs : SocketAddress) : Bool :=
  lhs.family = rhs.family ∧ memcmp (lhs.native order) (rhs.native order) lhs.nativeLen = 0

theorem length_family (order : ByteOrder) (family : AddressFamily) :
    (order.arrange [0, family.native]).length = 2 := by
  cases order <;> rfl

@[simp] theorem length_nativeBytes (order : ByteOrder) (a : SocketAddress) :
    (a.native order).length = 28 := by
  rw [native, List.length_append, length_family, a.length_rest]

theorem nativeLen_le (a : SocketAddress) : a.nativeLen ≤ 28 := by
  rw [nativeLen]
  split <;> omega

theorem memcmp_native :
    memcmp (a.native order) (b.native order) a.nativeLen = 0 ↔
      (a.native order).take a.nativeLen = (b.native order).take a.nativeLen :=
  memcmp_eq_zero_iff (by simpa using a.nativeLen_le) (by simpa using a.nativeLen_le)

/-- The first two bytes are the family. -/
theorem family_eq_of_memcmp
    (h : memcmp (a.native order) (b.native order) a.nativeLen = 0) : a.family = b.family := by
  have hlen : 2 ≤ a.nativeLen := by
    rw [nativeLen]
    split <;> omega
  have ht := congrArg (List.take 2) (memcmp_native.mp h)
  rw [List.take_take, List.take_take, min_eq_left hlen, native, native,
    List.take_left' (length_family order _), List.take_left' (length_family order _)] at ht
  have hn := ByteOrder.arrange_inj ht
  cases hf : a.family <;> cases hg : b.family <;> simp_all [AddressFamily.native]

theorem rest_eq_of_memcmp (hf : a.family = b.family)
    (h : memcmp (a.native order) (b.native order) a.nativeLen = 0) : a.rest = b.rest := by
  have ht := congrArg (List.drop 2) (memcmp_native.mp h)
  rw [List.drop_take, List.drop_take, native, native,
    List.drop_left' (length_family order _), List.drop_left' (length_family order _)] at ht
  cases hfa : a.family with
  | ipv4 =>
    -- the bytes that are not compared have been cleared in both
    simp only [nativeLen, hfa] at ht
    calc a.rest = a.rest.take 14 ++ a.rest.drop 14 := (List.take_append_drop 14 _).symm
      _ = b.rest.take 14 ++ b.rest.drop 14 := by rw [ht, a.cleared hfa, b.cleared (hf ▸ hfa)]
      _ = b.rest := List.take_append_drop 14 _
  | ipv6 =>
    simp only [nativeLen, hfa] at ht
    rwa [List.take_of_length_le (by rw [a.length_rest]),
      List.take_of_length_le (by rw [b.length_rest])] at ht

theorem memcmp_eq_zero : memcmp (a.native order) (b.native order) a.nativeLen = 0 ↔ a = b := by
  constructor
  · intro h
    have hf := family_eq_of_memcmp h
    exact SocketAddress.ext hf (rest_eq_of_memcmp hf h)
  · rintro rfl
    exact memcmp_native.mpr rfl

theorem equal_iff_eq : equal order a b ↔ a = b := by
  rw [equal, decide_eq_true_eq, memcmp_eq_zero]
  exact ⟨And.right, fun h => ⟨congrArg family h, h⟩⟩

/-- Less-than only tells addresses apart, it does not order them. -/
theorem less_iff_ne : less order a b ↔ a ≠ b := by
  simp only [less]
  split
  · next hlt =>
    have hne : a ≠ b := fun h => by simp [h] at hlt
    simpa using hne
  · rw [decide_eq_true_eq, ne_eq, memcmp_eq_zero]

/-- What `std::map` and `boost::totally_ordered` need of the comparisons at three addresses. -/
def Lawful (order : ByteOrder) (a b c : SocketAddress) : Prop :=
  ¬ less order a a ∧
    (less order a b → ¬ less order b a) ∧
    (less order a b → less order b c → less order a c) ∧
    (less order a b ∧ ¬ equal order a b ∧ ¬ less order b a ∨
      ¬ less order a b ∧ equal order a b ∧ ¬ less order b a ∨
      ¬ less order a b ∧ ¬ equal order a b ∧ less order b a)

/-- No two different addresses are ordered. -/
theorem less_lawful_iff_equal (order : ByteOrder) (a b c : SocketAddress) :
    Lawful order a b c ↔ equal order a b := by
  simp only [Lawful, less_iff_ne, equal_iff_eq]
  constructor
  · rintro ⟨-, hasymm, -, -⟩
    by_contra hne
    exact hasymm hne fun h => hne h.symm
  · rintro rfl
    simp

/-- Two ports of one address, each less than the other. -/
theorem less_both_ways :
    let a : SocketAddress := ⟨.ipv4, [0, 1, 127, 0, 0, 1] ++ List.replicate 20 0, rfl, by decide⟩
    let b : SocketAddress := ⟨.ipv4, [0, 2, 127, 0, 0, 1] ++ List.replicate 20 0, rfl, by decide⟩
    less .little a b ∧ less .little b a ∧ ¬ Lawful .little a b a := by
  intro a b
  have hab : less .little a b := by decide
  have hba : less .little b a := by decide
  exact ⟨hab, hba, fun h => h.2.1 hab hba⟩

end SocketAddress

end Wetnork
