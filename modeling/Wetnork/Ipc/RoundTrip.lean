import Wetnork.Address.IPAddress
import Wetnork.Ipc.Deserializer

/-! When reading an archive gives back the value it was written from. -/
namespace Wetnork.Ipc

/-- A type by the calls that write and read its values. `readable` is whether these reads can be
instantiated at all. -/
structure Hooks (T : Type) where
  serialize : T → Tree
  deserialize : Reader T
  readable : Prop
  equal : T → T → Prop

namespace Hooks

variable {T U A I : Type} {B : I → Type}

/-- Reading what has been written gives an equal value back and leaves nothing unread. -/
def InOrder (h : Hooks T) : Prop := ∀ x, ∃ y,
  h.deserialize.parse (h.serialize x).bytes (h.serialize x).fds = some (y, [], []) ∧ h.equal y x

/-- Reading gives `x` only off what writing `x` produces. -/
def Canonical (h : Hooks T) : Prop := ∀ x y bytes fds rest left,
  h.deserialize.parse bytes fds = some (y, rest, left) → h.equal y x →
    bytes = (h.serialize x).bytes ++ rest ∧ fds = (h.serialize x).fds ++ left

/-- Numbers, enumerations and marked types that are copied bit by bit. -/
def pod (size : ℕ) : Hooks { bytes : Bytes // bytes.length = size } where
  serialize x := .pod x.1
  deserialize := .raw size fun bytes =>
    if h : bytes.length = size then .done ⟨bytes, h⟩ else .undefined
  readable := True
  equal y x := y = x

/-- The elements that lie one after the other in memory. -/
def chunks (size : ℕ) : ℕ → Bytes → List Bytes
  | 0, _ => []
  | count + 1, bytes => bytes.take size :: chunks size count (bytes.drop size)

/-- `count` elements of `size` bytes each. -/
abbrev PodArray (size count : ℕ) :=
  { elements : List Bytes // elements.length = count ∧ ∀ bytes ∈ elements, bytes.length = size }

theorem chunks_flatten {size : ℕ} {elements : List Bytes}
    (h : ∀ bytes ∈ elements, bytes.length = size) :
    chunks size elements.length elements.flatten = elements := by
  induction elements with
  | nil => rfl
  | cons bytes elements ih =>
    have hb : bytes.length = size := h bytes List.mem_cons_self
    rw [List.flatten_cons, List.length_cons, chunks, List.take_left' hb, List.drop_left' hb,
      ih fun e he => h e (List.mem_cons_of_mem bytes he)]

theorem length_flatten_elements {size : ℕ} {elements : List Bytes}
    (h : ∀ bytes ∈ elements, bytes.length = size) :
    elements.flatten.length = elements.length * size := by
  induction elements with
  | nil => simp
  | cons bytes elements ih =>
    have hb : bytes.length = size := h bytes List.mem_cons_self
    rw [List.flatten_cons, List.length_append, List.length_cons, hb,
      ih fun e he => h e (List.mem_cons_of_mem bytes he), Nat.succ_mul, Nat.add_comm]

theorem chunks_spec (size count : ℕ) {bytes : Bytes} (h : bytes.length = count * size) :
    (chunks size count bytes).length = count ∧
      (∀ chunk ∈ chunks size count bytes, chunk.length = size) ∧
      (chunks size count bytes).flatten = bytes := by
  induction count generalizing bytes with
  | zero => simpa [chunks, eq_comm] using h
  | succ count ih =>
    rw [Nat.succ_mul] at h
    obtain ⟨hl, hm, hf⟩ := @ih (bytes.drop size) (by rw [List.length_drop]; omega)
    refine ⟨by rw [chunks, List.length_cons, hl], ?_, ?_⟩
    · intro chunk hc
      rcases List.mem_cons.mp hc with rfl | hc
      · rw [List.length_take]
        omega
      · exact hm chunk hc
    · rw [chunks, List.flatten_cons, hf, List.take_append_drop]

/-- `read(array, count)` for elements that are copied bit by bit. -/
def podArray (size count : ℕ) : Hooks (PodArray size count) where
  serialize x := .podArray x.1
  deserialize := .raw (count * size) fun bytes =>
    if h : bytes.length = count * size then
      .done ⟨chunks size count bytes,
        (chunks_spec size count h).1, (chunks_spec size count h).2.1⟩
    else .undefined
  readable := True
  equal y x := y = x

/-- `writeFd` and `readFd`. -/
def fd : Hooks ℤ where
  serialize n := .fd n
  deserialize := .fd .done
  readable := True
  equal m n := m = n

theorem pod_inOrder (size : ℕ) : (pod size).InOrder := by
  intro x
  refine ⟨x, ?_, rfl⟩
  change (pod size).deserialize.parse (Tree.pod x.1).bytes [] = _
  rw [Tree.bytes_pod, ← List.append_nil x.1, pod, Reader.parse_raw_append _ x.2, dif_pos x.2]
  rfl

theorem podArray_inOrder (size count : ℕ) : (podArray size count).InOrder := by
  rintro ⟨elements, rfl, h⟩
  refine ⟨⟨elements, rfl, h⟩, ?_, rfl⟩
  have hl := length_flatten_elements h
  change (podArray size _).deserialize.parse (Tree.podArray elements).bytes [] = _
  rw [Tree.bytes_podArray, ← List.append_nil elements.flatten, podArray,
    Reader.parse_raw_append _ hl, dif_pos hl]
  simp [Reader.parse, chunks_flatten h]

theorem fd_inOrder : fd.InOrder := fun n => ⟨n, rfl, rfl⟩

theorem pod_canonical (size : ℕ) : (pod size).Canonical := by
  rintro x y bytes fds rest left hp rfl
  obtain ⟨item, more, hl, rfl, hn⟩ := Reader.parse_raw_eq_some hp
  rw [dif_pos hl] at hn
  simp only [Reader.parse, Option.some.injEq, Prod.mk.injEq] at hn
  obtain ⟨rfl, rfl, rfl⟩ := hn
  exact ⟨by simp [pod], rfl⟩

theorem podArray_canonical (size count : ℕ) : (podArray size count).Canonical := by
  rintro x y bytes fds rest left hp rfl
  obtain ⟨item, more, hl, rfl, hn⟩ := Reader.parse_raw_eq_some hp
  rw [dif_pos hl] at hn
  simp only [Reader.parse, Option.some.injEq, Prod.mk.injEq] at hn
  obtain ⟨rfl, rfl, rfl⟩ := hn
  exact ⟨by simp [podArray, (chunks_spec size count hl).2.2], rfl⟩

theorem fd_canonical : fd.Canonical := by
  rintro x y bytes fds rest left hp rfl
  cases fds with
  | nil => cases hp
  | cons n fds =>
    obtain ⟨rfl, rfl, rfl⟩ : n = y ∧ bytes = rest ∧ fds = left := by
      simpa [fd, Reader.parse] using hp
    exact ⟨rfl, rfl⟩

/-- The hooks of `IPAddress`. For a family that is neither of the two nothing is constructed. The
class has no default constructor, so that `pop` cannot be instantiated for it: its hook can only be
called on storage of the caller's. -/
def ipAddress (order : ByteOrder) (memory : IPAddress.Storage) : Hooks IPAddress where
  serialize ip := .hooked [.pod (ip.family.toInt order), .pod ip.native]
  deserialize := .raw 4 fun family =>
    if family = AddressFamily.ipv4.toInt order then
      .raw 4 fun addr => .done (.construct memory .ipv4 addr)
    else if family = AddressFamily.ipv6.toInt order then
      .raw 16 fun addr => .done (.construct memory .ipv6 addr)
    else
      .undefined
  readable := False
  equal lhs rhs := IPAddress.equal lhs rhs

theorem ipAddress_inOrder (order : ByteOrder) (memory : IPAddress.Storage) :
    (ipAddress order memory).InOrder := by
  intro ip
  refine ⟨.construct memory ip.family ip.native, ?_, ?_⟩
  · have hn := ip.length_native
    simp only [ipAddress, Tree.bytes_hooked, Tree.fds_hooked, List.map_cons, List.map_nil,
      List.flatten_cons, List.flatten_nil, Tree.bytes_pod]
    rw [Reader.parse_raw_append _ (ip.family.length_toInt order)]
    cases hf : ip.family with
    | ipv4 =>
      simp only [IPAddress.nativeSize, hf] at hn
      rw [if_pos rfl, Reader.parse_raw_append _ hn]
      simp [Reader.parse]
    | ipv6 =>
      simp only [IPAddress.nativeSize, hf] at hn
      have hne : AddressFamily.ipv6.toInt order ≠ AddressFamily.ipv4.toInt order := by
        intro h
        cases AddressFamily.toInt_inj h
      rw [if_neg hne, if_pos rfl, Reader.parse_raw_append _ hn]
      simp [Reader.parse]
  · exact IPAddress.equal_iff.mpr ⟨rfl, IPAddress.native_construct _ _ ip.length_native⟩

theorem ipAddress_canonical (order : ByteOrder) (memory : IPAddress.Storage) :
    (ipAddress order memory).Canonical := by
  rintro x y bytes fds rest left hp he
  obtain ⟨hfamily, hnative⟩ := IPAddress.equal_iff.mp he
  obtain ⟨item, more, -, rfl, hn⟩ := Reader.parse_raw_eq_some hp
  -- both families read the address and construct from it
  have hread : ∀ family size, item = AddressFamily.toInt order family →
      (∀ addr, (IPAddress.construct memory family addr).nativeSize = size) →
      (Reader.raw size fun addr => .done (IPAddress.construct memory family addr)).parse more fds =
        some (y, rest, left) →
      item ++ more = ((ipAddress order memory).serialize x).bytes ++ rest ∧
        fds = ((ipAddress order memory).serialize x).fds ++ left := by
    rintro family size rfl hsize hr
    obtain ⟨addr, last, hl, rfl, hd⟩ := Reader.parse_raw_eq_some hr
    obtain ⟨rfl, rfl, rfl⟩ : .construct memory family addr = y ∧ last = rest ∧ fds = left := by
      simpa [Reader.parse] using hd
    rw [IPAddress.native_construct _ _ (hl.trans (hsize addr).symm)] at hnative
    rw [hnative, show family = x.family from hfamily]
    simp [ipAddress]
  split at hn
  · exact hread .ipv4 4 ‹_› (fun _ => rfl) hn
  · split at hn
    · exact hread .ipv6 16 ‹_› (fun _ => rfl) hn
    · cases hn

section Built

variable {order : ByteOrder} {memory : IPAddress.Storage} {h : Hooks T}

end Built

theorem serialize_ipAddress (order : ByteOrder) (memory : IPAddress.Storage) (ip : IPAddress) :
    Ipc.serialize ((ipAddress order memory).serialize ip) =
      some ⟨(ip.family.toInt order ++ ip.native).map some,
        (ip.family.toInt order ++ ip.native).length, []⟩ := by
  have hbytes : ((ipAddress order memory).serialize ip).bytes =
      ip.family.toInt order ++ ip.native := by simp [ipAddress]
  have hfds : ((ipAddress order memory).serialize ip).fds = [] := by simp [ipAddress]
  have hfamily := ip.family.length_toInt order
  have hsize : ip.nativeSize ≤ 16 := by
    cases hf : ip.family <;> simp [IPAddress.nativeSize, hf]
  have hlt : ((ipAddress order memory).serialize ip).bytes.length < 2 ^ 63 := by
    rw [hbytes, List.length_append, ip.length_native]
    omega
  rw [serialize_of_lt hlt, hbytes, hfds]
  rfl

end Hooks

end Wetnork.Ipc
