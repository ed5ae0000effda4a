import Wetnork.Address.SocketAddress

/-! The constructors and accessors of `SocketAddress`: fields of two layouts in one union. -/
namespace Wetnork

/-- The bytes of a 16-bit number, most significant first. -/
def bytes16 (x : UInt16) : Bytes := [UInt8.ofNat (x.toNat / 256), UInt8.ofNat (x.toNat % 256)]

/-- A 16-bit number in memory. -/
def store16 (order : ByteOrder) (x : UInt16) : Bytes := order.arrange (bytes16 x)

/-- The number that two bytes of memory hold. -/
def load16 (order : ByteOrder) (first second : UInt8) : UInt16 :=
  match order with
  | .little => UInt16.ofNat (second.toNat * 256 + first.toNat)
  | .big => UInt16.ofNat (first.toNat * 256 + second.toNat)

/-- Swaps the two bytes on a host that stores the least significant one first. -/
def htons (order : ByteOrder) (x : UInt16) : UInt16 :=
  match order with
  | .little => UInt16.ofNat (x.toNat % 256 * 256 + x.toNat / 256)
  | .big => x

/-- An assignment to a field at `offset`. -/
def assign (bytes : Bytes) (offset : ℕ) (field : Bytes) : Bytes :=
  bytes.take offset ++ field ++ bytes.drop (offset + field.length)

theorem bytes16_inj {x y : UInt16} (h : bytes16 x = bytes16 y) : x = y := by
  have hx := x.toNat_lt
  have hy := y.toNat_lt
  simp only [bytes16, List.cons.injEq, and_true, ← UInt8.toNat_inj, UInt8.toNat_ofNat'] at h
  apply UInt16.toNat_inj.mp
  omega

/-- In memory, `htons` puts the most significant byte first on every host. -/
theorem store16_htons (order : ByteOrder) (x : UInt16) :
    store16 order (htons order x) = bytes16 x := by
  cases order with
  | little =>
    have hx := x.toNat_lt
    have hhi : x.toNat / 256 < 256 := by omega
    have hlo : x.toNat % 256 < 256 := by omega
    simp only [store16, htons, ByteOrder.arrange, bytes16, List.reverse_cons, List.reverse_nil,
      List.nil_append, List.cons_append, List.cons.injEq, and_true, ← UInt8.toNat_inj,
      UInt8.toNat_ofNat', UInt16.toNat_ofNat']
    generalize x.toNat / 256 = hi at *
    generalize x.toNat % 256 = lo at *
    omega
  | big => rfl

theorem load16_bytes16 (order : ByteOrder) (x : UInt16) :
    load16 order (UInt8.ofNat (x.toNat / 256)) (UInt8.ofNat (x.toNat % 256)) = htons order x := by
  have hx := x.toNat_lt
  cases order with
  | little =>
    have hhi : x.toNat / 256 < 256 := by omega
    have hlo : x.toNat % 256 < 256 := by omega
    simp only [load16, htons, UInt8.toNat_ofNat', Nat.mod_eq_of_lt hhi, Nat.mod_eq_of_lt hlo]
  | big =>
    apply UInt16.toNat_inj.mp
    simp only [load16, htons, UInt8.toNat_ofNat', UInt16.toNat_ofNat']
    omega

/-- Only numbers of two equal bytes survive the swap. -/
theorem htons_eq_iff (order : ByteOrder) (x : UInt16) :
    htons order x = x ↔ order = .big ∨ x.toNat / 256 = x.toNat % 256 := by
  have hx := x.toNat_lt
  cases order with
  | little =>
    simp only [htons, ← UInt16.toNat_inj, UInt16.toNat_ofNat', reduceCtorEq, false_or]
    omega
  | big => simp [htons]

namespace SocketAddress

inductive Fault where
  | invalidArgument (what : String)
  | outOfBounds
deriving DecidableEq, Repr

/-- The cleared union behind the family. -/
def zeros : Bytes := List.replicate 26 0

/-- `SocketAddress(const sockaddr*)`, given the bytes that can be read at the pointer: the layout
that the family selects is copied into the cleared union. -/
def ofNative (order : ByteOrder) (memory : Bytes) : Except Fault SocketAddress :=
  if memory.take 2 = order.arrange [0, AddressFamily.ipv4.native] then
    if h : 16 ≤ memory.length then
      .ok {
        family := .ipv4
        rest := assign zeros 0 ((memory.drop 2).take 14)
        length_rest := by simp [assign, zeros]
        cleared := by
          intro _
          have hl : ((memory.drop 2).take 14).length = 14 := by simp; omega
          simp [assign, zeros, hl] }
    else
      .error .outOfBounds
  else if memory.take 2 = order.arrange [0, AddressFamily.ipv6.native] then
    if h : 28 ≤ memory.length then
      .ok {
        family := .ipv6
        rest := assign zeros 0 ((memory.drop 2).take 26)
        length_rest := by simp [assign, zeros]
        cleared := by simp }
    else
      .error .outOfBounds
  else if memory.length < 2 then
    .error .outOfBounds
  else
    .error (.invalidArgument "Unsupported address family")

/-- The union behind the family after `SocketAddress(IPAddress&&, in_port_t)`: the port lies at
the same place in both layouts, the address does not. -/
def fields (order : ByteOrder) (addr : IPAddress) (port : UInt16) : Bytes :=
  let rest := assign zeros 0 (store16 order (htons order port))
  match addr.family with
  | .ipv4 => assign rest 2 addr.native
  | .ipv6 => assign rest 6 addr.native

theorem fields_ipv4 (order : ByteOrder) {addr : IPAddress} (port : UInt16)
    (h : addr.family = .ipv4) :
    fields order addr port = bytes16 port ++ (addr.native ++ List.replicate 20 0) := by
  have hn : addr.native.length = 4 := by
    rw [addr.length_native, IPAddress.nativeSize_ipv4 h]
  simp [fields, h, store16_htons, assign, zeros, bytes16, hn]

theorem fields_ipv6 (order : ByteOrder) {addr : IPAddress} (port : UInt16)
    (h : addr.family = .ipv6) :
    fields order addr port =
      bytes16 port ++ (List.replicate 4 0 ++ (addr.native ++ List.replicate 4 0)) := by
  have hn : addr.native.length = 16 := by
    rw [addr.length_native, IPAddress.nativeSize_ipv6 h]
  simp [fields, h, store16_htons, assign, zeros, bytes16, hn]

theorem length_fields (order : ByteOrder) (addr : IPAddress) (port : UInt16) :
    (fields order addr port).length = 26 := by
  cases h : addr.family with
  | ipv4 => simp [fields_ipv4 order port h, bytes16, IPAddress.nativeSize_ipv4 h]
  | ipv6 => simp [fields_ipv6 order port h, bytes16, IPAddress.nativeSize_ipv6 h]

theorem cleared_fields (order : ByteOrder) {addr : IPAddress} (port : UInt16)
    (h : addr.family = .ipv4) : (fields order addr port).drop 14 = List.replicate 12 0 := by
  simp [fields_ipv4 order port h, bytes16, List.drop_append, IPAddress.nativeSize_ipv4 h]

/-- `SocketAddress(IPAddress&&, in_port_t)` -/
def construct (order : ByteOrder) (addr : IPAddress) (port : UInt16) : SocketAddress where
  family := addr.family
  rest := fields order addr port
  length_rest := length_fields order addr port
  cleared := cleared_fields order port

/-- `address()`, constructed where the union held `memory`. -/
def address (memory : IPAddress.Storage) (a : SocketAddress) : IPAddress :=
  match a.family with
  | .ipv4 => .construct memory .ipv4 ((a.rest.drop 2).take 4)
  | .ipv6 => .construct memory .ipv6 ((a.rest.drop 6).take 16)

/-- `port()`, which returns the field as it is. -/
def port (order : ByteOrder) (a : SocketAddress) : UInt16 :=
  load16 order (a.rest.get ⟨0, by simp [a.length_rest]⟩) (a.rest.get ⟨1, by simp [a.length_rest]⟩)

variable {order : ByteOrder}

/-- The constructor converts the port and the accessor does not. -/
theorem port_construct (order : ByteOrder) (addr : IPAddress) (port : UInt16) :
    (construct order addr port).port order = htons order port := by
  rw [← load16_bytes16]
  cases h : addr.family with
  | ipv4 => simp [SocketAddress.port, construct, fields_ipv4 order port h, bytes16]
  | ipv6 => simp [SocketAddress.port, construct, fields_ipv6 order port h, bytes16]

theorem address_construct (order : ByteOrder) (memory : IPAddress.Storage) (addr : IPAddress)
    (port : UInt16) :
    (construct order addr port).address memory = .construct memory addr.family addr.native := by
  have hn := addr.length_native
  cases h : addr.family with
  | ipv4 =>
    rw [IPAddress.nativeSize_ipv4 h] at hn
    simp [address, construct, h, fields_ipv4 order port h, bytes16, hn]
  | ipv6 =>
    rw [IPAddress.nativeSize_ipv6 h] at hn
    simp [address, construct, h, fields_ipv6 order port h, bytes16, hn]

theorem equal_address_construct (order : ByteOrder) (memory : IPAddress.Storage)
    (addr : IPAddress) (port : UInt16) :
    ((construct order addr port).address memory).equal addr := by
  rw [address_construct]
  exact IPAddress.equal_iff.mpr ⟨rfl, IPAddress.native_construct _ _ addr.length_native⟩

/-- What a layout does not use is clear, so nothing but the address and the port is compared. -/
theorem construct_eq_iff {addr other : IPAddress} {port port' : UInt16} :
    construct order addr port = construct order other port' ↔
      addr.equal other ∧ port = port' := by
  rw [IPAddress.equal_iff, SocketAddress.ext_iff]
  simp only [construct]
  constructor
  · rintro ⟨hf, hr⟩
    cases h : addr.family with
    | ipv4 =>
      rw [fields_ipv4 order port h, fields_ipv4 order port' (hf ▸ h)] at hr
      obtain ⟨hp, hrest⟩ := List.append_inj hr rfl
      exact ⟨⟨h ▸ hf, (List.append_inj' hrest rfl).1⟩, bytes16_inj hp⟩
    | ipv6 =>
      rw [fields_ipv6 order port h, fields_ipv6 order port' (hf ▸ h)] at hr
      obtain ⟨hp, hrest⟩ := List.append_inj hr rfl
      obtain ⟨-, hrest⟩ := List.append_inj hrest rfl
      exact ⟨⟨h ▸ hf, (List.append_inj' hrest rfl).1⟩, bytes16_inj hp⟩
  · rintro ⟨⟨hf, hn⟩, rfl⟩
    refine ⟨hf, ?_⟩
    cases h : addr.family with
    | ipv4 => rw [fields_ipv4 order port h, fields_ipv4 order port (hf ▸ h), hn]
    | ipv6 => rw [fields_ipv6 order port h, fields_ipv6 order port (hf ▸ h), hn]

/-- A copy of the native representation is the same address. -/
theorem ofNative_native (order : ByteOrder) (a : SocketAddress) :
    ofNative order (a.native order) = .ok a := by
  have hfamily : (a.native order).take 2 = order.arrange [0, a.family.native] :=
    List.take_left' (length_family order _)
  have hrest : (a.native order).drop 2 = a.rest := List.drop_left' (length_family order _)
  have hlen := a.length_rest
  cases h : a.family with
  | ipv4 =>
    have hcopy : assign zeros 0 (a.rest.take 14) = a.rest := by
      calc assign zeros 0 (a.rest.take 14) = a.rest.take 14 ++ List.replicate 12 0 := by
            simp [assign, zeros, hlen]
        _ = a.rest.take 14 ++ a.rest.drop 14 := by rw [a.cleared h]
        _ = a.rest := List.take_append_drop 14 a.rest
    simp only [ofNative, hfamily, h, if_true, length_nativeBytes, hrest, hcopy]
    rw [dif_pos (by omega)]
    exact congrArg Except.ok (SocketAddress.ext h.symm rfl)
  | ipv6 =>
    have hne : order.arrange [0, AddressFamily.ipv6.native] ≠
        order.arrange [0, AddressFamily.ipv4.native] := by
      cases order <;> decide
    have hcopy : assign zeros 0 (a.rest.take 26) = a.rest := by
      simp [assign, zeros, hlen]
    simp only [ofNative, hfamily, h, if_neg hne, if_true, length_nativeBytes, hrest, hcopy]
    rw [dif_pos le_rfl]
    exact congrArg Except.ok (SocketAddress.ext h.symm rfl)

/-- What the constructors and the accessors are to each other, at one address and port. -/
structure Inverse (order : ByteOrder) (memory : IPAddress.Storage) (ip : IPAddress)
    (port : UInt16) : Prop where
  sameFamily : (construct order ip port).family = ip.family
  sameAddress : ((construct order ip port).address memory).equal ip
  samePort : (construct order ip port).port order = port
  copied : ∃ a, ofNative order ((construct order ip port).native order) = .ok a ∧
    a.equal order (construct order ip port)
  rebuilt : (construct order ((construct order ip port).address memory)
    ((construct order ip port).port order)).equal order (construct order ip port)
  injective : ∀ other port', (construct order ip port).equal order (construct order other port') ↔
    ip.equal other ∧ port = port'

/-- The port comes back exactly if the host stores the most significant byte first or the port has
two equal bytes; an address rebuilt from the accessors has the port they return. All else always
holds. -/
theorem inverse_iff_same_port (order : ByteOrder) (memory : IPAddress.Storage) (ip : IPAddress)
    (port : UInt16) :
    (Inverse order memory ip port ↔ order = .big ∨ port.toNat / 256 = port.toNat % 256) ∧
    ((construct order ip port).address memory).equal ip ∧
    ofNative order ((construct order ip port).native order) = .ok (construct order ip port) ∧
    ∀ other port', (construct order ip port).equal order (construct order other port') ↔
      ip.equal other ∧ port = port' := by
  have haddress := equal_address_construct order memory ip port
  have hnative := ofNative_native order (construct order ip port)
  have hinjective : ∀ other port',
      (construct order ip port).equal order (construct order other port') ↔
        ip.equal other ∧ port = port' := fun other port' =>
    equal_iff_eq.trans construct_eq_iff
  have hport := port_construct order ip port
  refine ⟨⟨fun h => ?_, fun h => ?_⟩, haddress, hnative, hinjective⟩
  · rw [← htons_eq_iff, ← hport]
    exact h.samePort
  · rw [← htons_eq_iff, ← hport] at h
    refine ⟨rfl, haddress, h, ⟨_, hnative, equal_iff_eq.mpr rfl⟩, ?_, hinjective⟩
    rw [h]
    exact equal_iff_eq.mpr (construct_eq_iff.mpr ⟨haddress, rfl⟩)

/-- Port 80 of 127.0.0.1 is read as 20480 on a little-endian host, and the address rebuilt from
what the accessors return is another one. -/
theorem port_swapped :
    let memory : IPAddress.Storage := ⟨List.replicate 16 0, rfl⟩
    let ip : IPAddress := ⟨[127, 0, 0, 1] ++ List.replicate 12 0, .ipv4, rfl⟩
    let a := construct .little ip 80
    a.port .little = 20480 ∧
      ¬ (construct .little (a.address memory) (a.port .little)).equal .little a ∧
      ¬ Inverse .little memory ip 80 := by
  intro memory ip a
  have hport : a.port .little = 20480 := port_construct .little ip 80
  refine ⟨hport, fun h => ?_, fun h => ?_⟩
  · have hp := (construct_eq_iff.mp (equal_iff_eq.mp h)).2
    exact absurd (hport.symm.trans hp) (by decide)
  · exact absurd (hport.symm.trans h.samePort) (by decide)

end SocketAddress

end Wetnork
