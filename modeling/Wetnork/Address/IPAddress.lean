import Wetnork.Packet

/-! `IPAddress`: a union of the two native layouts with a family beside it. -/
namespace Wetnork

/-- Byte order of the host; multi-byte fields are given most significant byte first. -/
inductive ByteOrder where
  | little
  | big
deriving DecidableEq, Repr

def ByteOrder.arrange (order : ByteOrder) (bytes : Bytes) : Bytes :=
  match order with
  | .little => bytes.reverse
  | .big => bytes

theorem ByteOrder.arrange_inj {order : ByteOrder} {bytes more : Bytes}
    (h : order.arrange bytes = order.arrange more) : bytes = more := by
  cases order with
  | little => exact List.reverse_injective h
  | big => exact h

/-- `memcmp` over the first `n` bytes; only the sign of its result is specified. -/
def memcmp : Bytes → Bytes → ℕ → ℤ
  | a :: as, b :: bs, n + 1 => if a < b then -1 else if b < a then 1 else memcmp as bs n
  | _, _, _ => 0

theorem memcmp_eq_zero_iff {as bs : Bytes} {n : ℕ} (ha : n ≤ as.length) (hb : n ≤ bs.length) :
    memcmp as bs n = 0 ↔ as.take n = bs.take n := by
  induction n generalizing as bs with
  | zero => simp [memcmp]
  | succ n ih =>
    obtain ⟨a, as, rfl⟩ := List.exists_cons_of_length_pos (Nat.zero_lt_of_lt ha)
    obtain ⟨b, bs, rfl⟩ := List.exists_cons_of_length_pos (Nat.zero_lt_of_lt hb)
    rw [memcmp, List.take_succ_cons, List.take_succ_cons, List.cons.injEq]
    rcases Nat.lt_trichotomy a.toNat b.toNat with h | h | h
    · have hne : a ≠ b := fun he => by simp [he] at h
      simp [UInt8.lt_iff_toNat_lt, h, hne]
    · obtain rfl := UInt8.toNat_inj.mp h
      simpa using ih (by simpa using ha) (by simpa using hb)
    · have hne : a ≠ b := fun he => by simp [he] at h
      simp [UInt8.lt_iff_toNat_lt, h, hne, Nat.lt_asymm h]

inductive AddressFamily where
  | ipv4
  | ipv6
deriving DecidableEq, Repr

namespace AddressFamily

/-- `AF_INET` and `AF_INET6`. -/
def native : AddressFamily → UInt8
  | ipv4 => 2
  | ipv6 => 10

/-- The enumeration as an `int` in memory. -/
def toInt (order : ByteOrder) (family : AddressFamily) : Bytes :=
  order.arrange [0, 0, 0, family.native]

@[simp] theorem length_toInt (order : ByteOrder) (family : AddressFamily) :
    (family.toInt order).length = 4 := by
  cases order <;> rfl

theorem toInt_inj {order : ByteOrder} {family other : AddressFamily}
    (h : family.toInt order = other.toInt order) : family = other := by
  have hn := ByteOrder.arrange_inj h
  cases family <;> cases other <;> simp_all [native]

end AddressFamily

/-- The union is sixteen bytes long, of which an IPv4 address uses the first four. -/
@[ext] structure IPAddress where
  addr : Bytes
  family : AddressFamily
  length_addr : addr.length = 16
deriving DecidableEq, Repr

namespace IPAddress

/-- Previous contents of the memory in which an address is constructed. -/
abbrev Storage := { bytes : Bytes // bytes.length = 16 }

/-- Constructors write the native address and leave the rest of the union as it was. -/
def construct (memory : Storage) (family : AddressFamily) (native : Bytes) : IPAddress where
  addr := (native ++ memory.1.drop native.length).take 16
  family := family
  length_addr := by
    have := memory.2
    simp only [List.length_take, List.length_append, List.length_drop]
    omega

def nativeSize (ip : IPAddress) : ℕ :=
  match ip.family with
  | .ipv4 => 4
  | .ipv6 => 16

/-- `in()` or `in6()`, whichever the family selects. -/
def native (ip : IPAddress) : Bytes := ip.addr.take ip.nativeSize

/-- `operator==` -/
def equal (lhs rhs : IPAddress) : Bool :=
  lhs.family = rhs.family ∧ memcmp lhs.addr rhs.addr lhs.nativeSize = 0

variable {ip other : IPAddress}

theorem nativeSize_le (ip : IPAddress) : ip.nativeSize ≤ 16 := by
  rw [nativeSize]
  split <;> omega

theorem nativeSize_ipv4 (h : ip.family = .ipv4) : ip.nativeSize = 4 := by
  rw [nativeSize, h]

theorem nativeSize_ipv6 (h : ip.family = .ipv6) : ip.nativeSize = 16 := by
  rw [nativeSize, h]

@[simp] theorem length_native (ip : IPAddress) : ip.native.length = ip.nativeSize := by
  rw [native, List.length_take, ip.length_addr]
  exact Nat.min_eq_left ip.nativeSize_le

theorem nativeSize_congr (h : ip.family = other.family) : ip.nativeSize = other.nativeSize := by
  rw [nativeSize, nativeSize, h]

/-- Equal addresses have the same family and agree on the bytes it uses. -/
theorem equal_iff : equal ip other ↔ ip.family = other.family ∧ ip.native = other.native := by
  rw [equal, decide_eq_true_eq]
  refine and_congr_right fun hf => ?_
  have hle := ip.nativeSize_le
  rw [memcmp_eq_zero_iff (by rw [ip.length_addr]; omega) (by rw [other.length_addr]; omega),
    native, native, nativeSize_congr hf]

theorem native_construct (memory : Storage) (family : AddressFamily) {bytes : Bytes}
    (h : bytes.length = (construct memory family bytes).nativeSize) :
    (construct memory family bytes).native = bytes := by
  have hle := (construct memory family bytes).nativeSize_le
  rw [native, ← h]
  simp only [construct]
  rw [List.take_take, min_eq_left (by omega), List.take_left' rfl]

/-- `operator<`: any difference that `memcmp` finds counts as less. -/
def less (lhs rhs : IPAddress) : Bool :=
  lhs.family.native < rhs.family.native ∨ memcmp lhs.addr rhs.addr lhs.nativeSize ≠ 0

/-- What `boost::totally_ordered` needs of the comparisons at three addresses. -/
def Lawful (a b c : IPAddress) : Prop :=
  ¬ less a a ∧
    (less a b → ¬ less b a) ∧
    (less a b → less b c → less a c) ∧
    (less a b ∧ ¬ equal a b ∧ ¬ less b a ∨
      ¬ less a b ∧ equal a b ∧ ¬ less b a ∨
      ¬ less a b ∧ ¬ equal a b ∧ less b a)

variable {a b c : IPAddress}

/-- The comparison takes as many bytes as the family on the left uses, whatever is on the right. -/
theorem less_iff : less a b ↔
    a.family.native < b.family.native ∨ a.native ≠ b.addr.take a.nativeSize := by
  have hle := a.nativeSize_le
  rw [less, decide_eq_true_eq, native, ne_eq, ne_eq,
    memcmp_eq_zero_iff (by rw [a.length_addr]; omega) (by rw [b.length_addr]; omega)]

theorem native_ipv6 (h : a.family = .ipv6) : a.native = a.addr := by
  rw [native, nativeSize_ipv6 h, List.take_of_length_le (by rw [a.length_addr])]

/-- Of one family, less-than only tells addresses apart. -/
theorem less_iff_not_equal (h : a.family = b.family) : less a b ↔ ¬ equal a b := by
  have hn : b.addr.take a.nativeSize = b.native := by
    rw [native, nativeSize_congr h]
  simp [less_iff, equal_iff, h, hn]

theorem less_ipv4_ipv6 (ha : a.family = .ipv4) (hb : b.family = .ipv6) : less a b := by
  rw [less_iff, ha, hb]
  exact Or.inl (by decide)

/-- From IPv6 to IPv4 also the bytes that IPv4 does not use are compared. -/
theorem less_ipv6_ipv4 (ha : a.family = .ipv6) (hb : b.family = .ipv4) :
    less a b ↔ a.addr ≠ b.addr := by
  have hn : b.addr.take a.nativeSize = b.addr := by
    rw [nativeSize_ipv6 ha, List.take_of_length_le (by rw [b.length_addr])]
  have hlt : ¬ AddressFamily.ipv6.native < AddressFamily.ipv4.native := by decide
  rw [less_iff, native_ipv6 ha, hn, ha, hb]
  simp [hlt]

theorem not_less_self (a : IPAddress) : ¬ less a a := by
  rw [less_iff_not_equal rfl, not_not]
  exact equal_iff.mpr ⟨rfl, rfl⟩

theorem not_equal_of_family (h : a.family ≠ b.family) : ¬ equal a b := fun he =>
  h (equal_iff.mp he).1

theorem lawful_of_family_eq (h : a.family = b.family) : Lawful a b c ↔ equal a b := by
  have hab := less_iff_not_equal h
  have hba : less b a ↔ ¬ equal a b := by
    rw [less_iff_not_equal h.symm, equal_iff, equal_iff, eq_comm, eq_comm (a := b.native)]
  simp only [Lawful, hab, hba]
  constructor
  · rintro ⟨-, hasymm, -, -⟩
    by_contra hne
    exact hasymm hne hne
  · intro he
    simp [he, not_less_self]

/-- The second condition keeps `a < b < c` from holding of an address `c` that is equal to `a`. -/
theorem lawful_ipv4_ipv6 (ha : a.family = .ipv4) (hb : b.family = .ipv6) :
    Lawful a b c ↔ a.addr = b.addr ∧ (equal a c → a.addr = c.addr) := by
  have hab := less_ipv4_ipv6 ha hb
  have hba : less b a ↔ a.addr ≠ b.addr := by
    rw [less_ipv6_ipv4 hb ha, ne_comm]
  have hne : ¬ equal a b := not_equal_of_family (by simp [ha, hb])
  constructor
  · rintro ⟨-, hasymm, htrans, -⟩
    have haddr : a.addr = b.addr := by
      by_contra h
      exact hasymm hab (hba.mpr h)
    refine ⟨haddr, fun he => ?_⟩
    by_contra hc
    have hf : c.family = .ipv4 := (equal_iff.mp he).1.symm.trans ha
    have hbc : less b c := (less_ipv6_ipv4 hb hf).mpr (by rwa [← haddr])
    exact (less_iff_not_equal (ha.trans hf.symm)).mp (htrans hab hbc) he
  · rintro ⟨haddr, hsame⟩
    have hnot : ¬ less b a := fun h => hba.mp h haddr
    refine ⟨not_less_self a, fun _ => hnot, fun _ hbc => ?_, Or.inl ⟨hab, hne, hnot⟩⟩
    cases hf : c.family with
    | ipv4 =>
      rw [less_iff_not_equal (ha.trans hf.symm)]
      intro he
      exact (less_ipv6_ipv4 hb hf).mp hbc (haddr.symm.trans (hsame he))
    | ipv6 => exact less_ipv4_ipv6 ha hf

theorem lawful_ipv6_ipv4 (ha : a.family = .ipv6) (hb : b.family = .ipv4) :
    Lawful a b c ↔ a.addr = b.addr := by
  have hab := less_ipv6_ipv4 ha hb
  have hba := less_ipv4_ipv6 hb ha
  have hne : ¬ equal a b := not_equal_of_family (by simp [ha, hb])
  constructor
  · rintro ⟨-, hasymm, -, -⟩
    by_contra h
    exact hasymm (hab.mpr h) hba
  · intro haddr
    have hnot : ¬ less a b := fun h => hab.mp h haddr
    exact ⟨not_less_self a, fun h => absurd h hnot, fun h => absurd h hnot,
      Or.inr (Or.inr ⟨hnot, hne, hba⟩)⟩

/-- Two addresses of one family are ordered only if they are equal. Of two families, they are as
long as the unions agree on all sixteen bytes, those that IPv4 does not use included, also with
that of a third address that is equal to the first. -/
theorem less_lawful_iff_same_bytes (a b c : IPAddress) :
    Lawful a b c ↔ equal a b ∨
      a.family ≠ b.family ∧ a.addr = b.addr ∧ (equal a c → a.addr = c.addr) := by
  by_cases h : a.family = b.family
  · simp [lawful_of_family_eq h, h]
  · have hne := not_equal_of_family h
    cases ha : a.family <;> cases hb : b.family
    · exact absurd (ha.trans hb.symm) h
    · simp [lawful_ipv4_ipv6 ha hb, hne]
    · have hsame : equal a c → a.addr = c.addr := by
        intro he
        obtain ⟨hf, hn⟩ := equal_iff.mp he
        rwa [native_ipv6 ha, native_ipv6 (hf.symm.trans ha)] at hn
      simpa [lawful_ipv6_ipv4 ha hb, hne] using fun _ => hsame
    · exact absurd (ha.trans hb.symm) h

/-- 127.0.0.1 and 127.0.0.2, each less than the other. -/
theorem loopback_less_both_ways :
    let a : IPAddress := ⟨[127, 0, 0, 1] ++ List.replicate 12 0, .ipv4, rfl⟩
    let b : IPAddress := ⟨[127, 0, 0, 2] ++ List.replicate 12 0, .ipv4, rfl⟩
    less a b ∧ less b a ∧ ¬ Lawful a b a := by
  intro a b
  have hab : less a b := by decide
  have hba : less b a := by decide
  exact ⟨hab, hba, fun h => h.2.1 hab hba⟩

end IPAddress

end Wetnork
