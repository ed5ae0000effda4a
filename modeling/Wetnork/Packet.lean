import Mathlib.Tactic

/-! Packets are windows on a shared block of bytes; channels strip headers by moving the window. -/
namespace Wetnork

abbrev Bytes := List UInt8

/-- The shared allocation `data_` with the signed offset and the length of the window.
The C++ constructors check nothing, so the window may reach outside the block. -/
structure Packet where
  block : Bytes
  offset : Int
  length : Nat
deriving DecidableEq, Repr

namespace Packet

variable {p : Packet} {n m : ℕ}

/-- A packet that owns a fresh buffer: `Packet(buffer, 0, size)`. -/
def ofBytes (bytes : Bytes) : Packet := ⟨bytes, 0, bytes.length⟩

/-- `data()[i]`, which does not look at the length; `none` is a read outside the allocation. -/
def byte (p : Packet) (i : ℕ) : Option UInt8 :=
  if 0 ≤ p.offset + i then p.block[(p.offset + i).toNat]? else none

/-- The bytes of the window. -/
def contents (p : Packet) : Bytes := (p.block.drop p.offset.toNat).take p.length

/-- The window lies inside its block, and no block exceeds `PTRDIFF_MAX`. -/
structure InBounds (p : Packet) : Prop where
  nonneg : 0 ≤ p.offset
  fits : p.offset + p.length ≤ p.block.length
  small : p.block.length < 2 ^ 63

instance (p : Packet) : Decidable p.InBounds :=
  decidable_of_iff (0 ≤ p.offset ∧ p.offset + p.length ≤ p.block.length ∧ p.block.length < 2 ^ 63)
    ⟨fun h => ⟨h.1, h.2.1, h.2.2⟩, fun h => ⟨h.nonneg, h.fits, h.small⟩⟩

/-- A packet as its owners hand it around: it stays inside its block, and it is far enough
below `PTRDIFF_MAX` that a header still fits in front of it. -/
structure View extends Packet where
  inBounds : toPacket.InBounds
  room : toPacket.length < 2 ^ 62

/-- `offset_ + bytes` mixes `ptrdiff_t` and `size_t`, so it is computed modulo `2^64`. -/
def skip (p : Packet) (bytes : ℕ) : Packet :=
  let bytes := if bytes > p.length then p.length else bytes
  ⟨p.block, Int.bmod (p.offset + bytes) (2 ^ 64), p.length - bytes⟩

def truncate (p : Packet) (length : ℕ) : Packet :=
  ⟨p.block, p.offset, if length > p.length then p.length else length⟩

theorem inBounds_ofBytes {bytes : Bytes} (h : bytes.length < 2 ^ 63) : (ofBytes bytes).InBounds :=
  ⟨le_rfl, by simp [ofBytes], h⟩

@[simp] theorem contents_ofBytes (bytes : Bytes) : (ofBytes bytes).contents = bytes := by
  simp [contents, ofBytes]

@[simp] theorem length_ofBytes (bytes : Bytes) : (ofBytes bytes).length = bytes.length := rfl

theorem length_contents (h : p.InBounds) : p.contents.length = p.length := by
  have := h.nonneg
  have := h.fits
  simp only [contents, List.length_take, List.length_drop]
  omega

theorem length_lt (h : p.InBounds) : p.length < 2 ^ 63 := by
  have := h.nonneg
  have := h.fits
  have := h.small
  omega

/-- Inside the window, pointer reads and the contents agree. -/
theorem byte_eq (h : p.InBounds) {i : ℕ} (hi : i < p.length) : p.byte i = p.contents[i]? := by
  have hn := h.nonneg
  have he : (p.offset + i).toNat = p.offset.toNat + i := by omega
  simp [byte, contents, hi, he, show 0 ≤ p.offset + i by omega]

theorem skip_offset (h : p.InBounds) : (p.skip n).offset = p.offset + (min n p.length : ℕ) := by
  have := h.nonneg
  have := h.fits
  have := h.small
  have he : (if n > p.length then p.length else n) = min n p.length := by
    split <;> omega
  simp only [skip, he]
  apply Int.bmod_eq_of_le <;> omega

theorem skip_length : (p.skip n).length = p.length - n := by
  simp only [skip]
  split <;> omega

/-- Skipping never leaves the original window. -/
theorem skip_inBounds (h : p.InBounds) : (p.skip n).InBounds := by
  have := h.nonneg
  have := h.fits
  refine ⟨?_, ?_, h.small⟩
  · rw [skip_offset h]
    omega
  · rw [skip_offset h, skip_length]
    change _ ≤ (p.block.length : ℤ)
    omega

theorem skip_contents (h : p.InBounds) : (p.skip n).contents = p.contents.drop n := by
  have := h.nonneg
  have hl := length_contents h
  have he : (p.skip n).offset.toNat = p.offset.toNat + min n p.length := by
    rw [skip_offset h]
    omega
  simp only [contents, he, skip_length, List.drop_take] at hl ⊢
  rw [show (p.skip n).block = p.block from rfl]
  rcases Nat.le_total n p.length with hn | hn
  · rw [Nat.min_eq_left hn, List.drop_drop]
  · simp [Nat.sub_eq_zero_of_le hn]

end Packet

namespace Stream

/-- The sizing loop of the gather write; `size_t` wraps. -/
def gatherSize (packets : List Packet) : ℕ :=
  packets.foldl (fun size packet => (size + packet.length) % 2 ^ 64) 0

/-- The copying loop into a buffer of `size` bytes. `none` is a `memcpy` that leaves
the source's or the target's allocation. -/
def gatherCopy (size : ℕ) : Bytes → List Packet → Option Bytes
  | buffer, [] => some buffer
  | buffer, packet :: packets =>
    if buffer.length + packet.length ≤ size ∧ packet.contents.length = packet.length then
      gatherCopy size (buffer ++ packet.contents) packets
    else none

/-- `Stream::write(begin, end)`: the one packet it hands to `write(const Packet&)`. It hands none
over if `new uint8_t[size]` throws, as it does from `2^63` on, or if a `memcpy` goes astray. -/
def gather (packets : List Packet) : Option Packet :=
  if gatherSize packets < 2 ^ 63 then
    (gatherCopy (gatherSize packets) [] packets).map Packet.ofBytes
  else
    none

/-- The sizing loop computes the sum of the lengths modulo `2^64`. -/
theorem gatherSize_eq (packets : List Packet) :
    gatherSize packets = (packets.map Packet.length).sum % 2 ^ 64 := by
  have key : ∀ (ps : List Packet) (k : ℕ),
      ps.foldl (fun size packet => (size + packet.length) % 2 ^ 64) (k % 2 ^ 64) =
        (k + (ps.map Packet.length).sum) % 2 ^ 64 := by
    intro ps
    induction ps with
    | nil => simp
    | cons p ps ih =>
      intro k
      rw [List.foldl_cons, Nat.mod_add_mod, ih, List.map_cons, List.sum_cons, Nat.add_assoc]
  have h := key packets 0
  rwa [Nat.zero_mod, Nat.zero_add] at h

theorem gatherCopy_eq {size : ℕ} {packets : List Packet}
    (h : ∀ p ∈ packets, p.contents.length = p.length) (buffer : Bytes)
    (hs : buffer.length + (packets.map Packet.length).sum ≤ size) :
    gatherCopy size buffer packets = some (buffer ++ packets.flatMap Packet.contents) := by
  induction packets generalizing buffer with
  | nil => simp [gatherCopy]
  | cons p ps ih =>
    have hp := h p List.mem_cons_self
    simp only [List.map_cons, List.sum_cons] at hs
    rw [gatherCopy, if_pos ⟨by omega, hp⟩, ih (fun q hq => h q (List.mem_cons_of_mem p hq))]
    · simp
    · rw [List.length_append, hp]
      omega

/-- A copying loop that stays inside its buffer had room for all the packets. -/
theorem le_of_gatherCopy {size : ℕ} {packets : List Packet} {buffer result : Bytes}
    (h : gatherCopy size buffer packets = some result) (hb : buffer.length ≤ size) :
    buffer.length + (packets.map Packet.length).sum ≤ size := by
  induction packets generalizing buffer with
  | nil => simpa using hb
  | cons p ps ih =>
    rw [gatherCopy] at h
    split at h
    · next hp =>
      have := ih h (by rw [List.length_append]; omega)
      simp only [List.length_append, List.map_cons, List.sum_cons] at this ⊢
      omega
    · cases h

/-- The gather write emits the concatenation exactly if a buffer of that size can be had: a sum
that wraps gives one that is too small. -/
theorem gather_iff {packets : List Packet} (h : ∀ p ∈ packets, p.contents.length = p.length) :
    gather packets = some (Packet.ofBytes (packets.flatMap Packet.contents)) ↔
      (packets.map Packet.length).sum < 2 ^ 63 := by
  have hsize := gatherSize_eq packets
  constructor
  · intro hg
    rw [gather] at hg
    split at hg
    · obtain ⟨result, hr, -⟩ := Option.map_eq_some_iff.mp hg
      have hle := le_of_gatherCopy hr (Nat.zero_le _)
      simp only [List.length_nil] at hle
      omega
    · cases hg
  · intro hs
    rw [gather, if_pos (by omega), gatherCopy_eq h [] (by simp only [List.length_nil]; omega)]
    simp

theorem gather_eq {packets : List Packet} (h : ∀ p ∈ packets, p.InBounds)
    (hs : (packets.map Packet.length).sum < 2 ^ 63) :
    gather packets = some (Packet.ofBytes (packets.flatMap Packet.contents)) :=
  (gather_iff fun p hp => Packet.length_contents (h p hp)).mpr hs

/-- A header in front of a packet is emitted with it exactly if there is room for both. -/
theorem gather_header_iff {header p : Packet} (hh : header.InBounds) (hp : p.InBounds) :
    gather [header, p] = some (Packet.ofBytes (header.contents ++ p.contents)) ↔
      header.length + p.length < 2 ^ 63 := by
  have h := @gather_iff [header, p] (by simp [Packet.length_contents hh, Packet.length_contents hp])
  simpa using h

/-- What is emitted has been allocated. -/
theorem gatherSize_lt {packets : List Packet} {p : Packet} (h : gather packets = some p) :
    gatherSize packets < 2 ^ 63 := by
  rw [gather] at h
  split at h
  · assumption
  · cases h

end Stream

end Wetnork
