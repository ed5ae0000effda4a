import Wetnork.Tunnel.DataPath

/-! `TunDevice`: what the result of `::read` becomes on its way to the link. -/
namespace Wetnork.Tunnel

/-- The buffer after the call of `::read`, which writes nothing if it fails, and its result. -/
structure ReadResult where
  buffer : Bytes
  ret : ℤ
  allocated : buffer.length = 2 ^ 16
  range : ret = -1 ∨ 0 ≤ ret ∧ ret ≤ 2 ^ 16

/-- `TunDevice::watcherEvent`, with the packet that it propagates; the signed result of `::read`
is stored in a `size_t`. -/
def watcherEvent (result : ReadResult) : Packet :=
  let len := (result.ret % 2 ^ 64).toNat
  ⟨result.buffer, 0, len⟩

/-- The sizing sum of the gather write for a packet of the tun device behind its header. -/
def framedSize (p : Packet) : ℕ :=
  Stream.gatherSize [UnreliablePacketHeader.toPacket DataChannelId, p]

/-- The packet is a window on the allocated buffer, its frame is sized by the true sum, and all
copies of the gather write stay inside what they read and write. -/
structure Bounded (p : Packet) : Prop where
  short : p.length ≤ 2 ^ 16
  inBounds : p.InBounds
  sized : framedSize p = UnreliablePacketHeader.size + p.length
  copied : (tunRead p).isSome

variable {p : Packet} {result : ReadResult}

theorem framedSize_eq (p : Packet) :
    framedSize p = (UnreliablePacketHeader.size + p.length) % 2 ^ 64 := by
  rw [framedSize, Stream.gatherSize_eq]
  simp [UnreliablePacketHeader.toPacket, UnreliablePacketHeader.size]

theorem bounded_of_inBounds (h : p.InBounds) (hs : p.length ≤ 2 ^ 16) : Bounded p := by
  refine ⟨hs, h, ?_, ?_⟩
  · rw [framedSize_eq, UnreliablePacketHeader.size]
    omega
  · simp [tunRead_eq h (by omega)]

theorem watcherEvent_length (h : result.ret ≠ -1) :
    ((watcherEvent result).length : ℤ) = result.ret := by
  have := result.range
  simp only [watcherEvent]
  omega

theorem watcherEvent_inBounds (h : result.ret ≠ -1) : (watcherEvent result).InBounds := by
  have hl := watcherEvent_length h
  have hr := result.range
  have ha := result.allocated
  refine ⟨le_rfl, ?_, ?_⟩
  · change 0 + ((watcherEvent result).length : ℤ) ≤ (result.buffer.length : ℤ)
    omega
  · change result.buffer.length < 2 ^ 63
    omega

/-- An error becomes the largest length there is. -/
theorem watcherEvent_error (h : result.ret = -1) : (watcherEvent result).length = 2 ^ 64 - 1 := by
  simp [watcherEvent, h]

/-- The sum then wraps to an empty buffer. -/
theorem framedSize_error (h : p.length = 2 ^ 64 - 1) : framedSize p = 0 := by
  rw [framedSize_eq, UnreliablePacketHeader.size]
  omega

/-- There is no room in it, not even for the header. -/
theorem tunRead_error (h : p.length = 2 ^ 64 - 1) : tunRead p = none := by
  have hs := framedSize_error h
  have ha : Stream.gatherSize [UnreliablePacketHeader.toPacket DataChannelId, p] < 2 ^ 63 := by
    rw [← framedSize, hs]
    norm_num
  rw [tunRead, UnreliableChannel.writePacket, Stream.gather, if_pos ha, Option.map_eq_none_iff,
    Option.eq_none_iff_forall_ne_some]
  intro bytes hc
  have hle := Stream.le_of_gatherCopy hc (Nat.zero_le _)
  simp only [framedSize, List.map_cons, List.sum_cons] at hs hle
  omega

/-- Sizes stay bounded from the tun device to the gather write exactly if `::read` succeeds; after
an error neither the packet nor the sum nor the copies are. -/
theorem watcherEvent_bounded_iff (result : ReadResult) :
    (Bounded (watcherEvent result) ↔ result.ret ≠ -1) ∧
    (framedSize (watcherEvent result) = UnreliablePacketHeader.size + (watcherEvent result).length ↔
      result.ret ≠ -1) ∧
    ((tunRead (watcherEvent result)).isSome ↔ result.ret ≠ -1) := by
  by_cases h : result.ret = -1
  · have hl := watcherEvent_error h
    have hs := framedSize_error hl
    have hn := tunRead_error hl
    refine ⟨?_, ?_, ?_⟩
    · have hb : ¬ Bounded (watcherEvent result) := by
        intro hb
        have := hb.short
        omega
      simp [h, hb]
    · rw [hs, UnreliablePacketHeader.size]
      omega
    · simp [h, hn]
  · have hl := watcherEvent_length h
    have hr := result.range
    have hb : Bounded (watcherEvent result) :=
      bounded_of_inBounds (watcherEvent_inBounds h) (by omega)
    simp [h, hb, hb.sized, hb.copied]

/-- `::read` fails with an empty queue, say. -/
theorem read_error_unbounded :
    let result : ReadResult := ⟨List.replicate (2 ^ 16) 0, -1, List.length_replicate, Or.inl rfl⟩
    ¬ Bounded (watcherEvent result) ∧ framedSize (watcherEvent result) = 0 ∧
      tunRead (watcherEvent result) = none := by
  intro result
  have hl : (watcherEvent result).length = 2 ^ 64 - 1 := watcherEvent_error rfl
  refine ⟨?_, framedSize_error hl, tunRead_error hl⟩
  intro hb
  have := hb.short
  omega

end Wetnork.Tunnel
