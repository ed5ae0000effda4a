import Wetnork.Reliable.Channel

/-! The frame format of reliable channels, in both directions, and the gather write under it. -/
namespace Wetnork.Reliable

namespace ReliablePacketHeader

theorem htonl_ntohl (b₀ b₁ b₂ b₃ : UInt8) : htonl (ntohl b₀ b₁ b₂ b₃) = [b₀, b₁, b₂, b₃] := by
  have h₀ := b₀.toNat_lt
  have h₁ := b₁.toNat_lt
  have h₂ := b₂.toNat_lt
  have h₃ := b₃.toNat_lt
  simp only [htonl, ntohl, List.cons.injEq, and_true, ← UInt8.toNat_inj, UInt8.toNat_ofNat',
    UInt32.toNat_ofNat']
  omega

end ReliablePacketHeader

/-- Decoding a header and encoding it again gives the first bytes of the frame. -/
theorem bytes_header (f : Frame) :
    f.header.bytes = f.1.contents.take ReliablePacketHeader.size := by
  have hl := Packet.length_contents f.2.1
  have hs := f.2.2
  have byte : ∀ i < 6, f.1.byte i = f.1.contents[i]? := by
    intro i hi
    apply Packet.byte_eq f.2.1
    unfold ReliablePacketHeader.size at hs
    omega
  have hd := ofData_header f
  obtain ⟨b₀, b₁, b₂, b₃, b₄, b₅, rest, hc⟩ :
      ∃ b₀ b₁ b₂ b₃ b₄ b₅ rest, f.1.contents = b₀ :: b₁ :: b₂ :: b₃ :: b₄ :: b₅ :: rest := by
    rw [← hl] at hs
    match hm : f.1.contents, hs with
    | b₀ :: b₁ :: b₂ :: b₃ :: b₄ :: b₅ :: rest, _ => exact ⟨b₀, b₁, b₂, b₃, b₄, b₅, rest, rfl⟩
  simp [ReliablePacketHeader.ofData, byte, hc] at hd
  rw [← hd, hc, ReliablePacketHeader.bytes, ReliablePacketHeader.htonl_ntohl]
  rfl

/-- No frame is written for a payload that leaves no room for the header. -/
theorem room_of_gather (h : ReliablePacketHeader) {p frame : Packet} (hp : p.InBounds)
    (hg : Stream.gather [h.toPacket, p] = some frame) :
    ReliablePacketHeader.size + p.length < 2 ^ 63 := by
  have hsize := Stream.gatherSize_lt hg
  have hl := Packet.length_lt hp
  have hs : h.toPacket.length = ReliablePacketHeader.size := by simp [ReliablePacketHeader.toPacket]
  simp only [Stream.gatherSize_eq, List.map_cons, List.map_nil, List.sum_cons, List.sum_nil, hs,
    ReliablePacketHeader.size] at hsize ⊢
  omega

/-- Frames are read back as they were written, and written back as they were read. The gather
write under them concatenates any windows whose lengths add up to what can be allocated, and no
others. -/
theorem frame_codec (cid flags : UInt8) (seq : UInt32) (f : Frame)
    (payload : { p : Packet // p.InBounds }) (packets : List { p : Packet // p.InBounds }) :
    ((∃ frame, Stream.gather [(ReliablePacketHeader.mk cid flags seq).toPacket,
        payload.1] = some frame ∧
      frame.contents = cid :: flags :: UInt8.ofNat (seq.toNat / 2 ^ 24) ::
        UInt8.ofNat (seq.toNat / 2 ^ 16) :: UInt8.ofNat (seq.toNat / 2 ^ 8) ::
        UInt8.ofNat seq.toNat :: payload.1.contents ∧
      ReliablePacketHeader.ofData frame = some ⟨cid, flags, seq⟩ ∧
      (frame.skip ReliablePacketHeader.size).contents = payload.1.contents) ↔
      ReliablePacketHeader.size + payload.1.length < 2 ^ 63) ∧
    Stream.gather [f.header.toPacket, f.1.skip ReliablePacketHeader.size] =
      some (Packet.ofBytes f.1.contents) ∧
    (Stream.gather (packets.map Subtype.val) =
        some (Packet.ofBytes (packets.flatMap fun p => p.1.contents)) ↔
      (packets.map fun p => p.1.length).sum < 2 ^ 63) := by
  refine ⟨⟨?_, fun hr => ⟨_, ReliablePacketHeader.gather_frame _ payload.2 hr, ?_, ?_, ?_⟩⟩, ?_, ?_⟩
  · rintro ⟨frame, hg, -⟩
    exact room_of_gather _ payload.2 hg
  · rw [Packet.contents_ofBytes]
    rfl
  · exact ReliablePacketHeader.ofData_ofBytes _ _
  · exact ReliablePacketHeader.skip_frame _ _
  · have hf := f.2.1
    have hl := Packet.length_lt hf
    have hs := f.2.2
    rw [ReliablePacketHeader.gather_frame _ (Packet.skip_inBounds hf), Packet.skip_contents hf,
      bytes_header, List.take_append_drop]
    rw [Packet.skip_length]
    omega
  · have hlen : ∀ p ∈ packets.map Subtype.val, p.contents.length = p.length := by
      intro p hp
      obtain ⟨q, -, rfl⟩ := List.mem_map.mp hp
      exact Packet.length_contents q.2
    simpa [List.flatMap_map, Function.comp_def] using Stream.gather_iff hlen

theorem gather_replicate_iff {p : Packet} (hp : p.InBounds) (n : ℕ) :
    Stream.gather (List.replicate n p) =
        some (Packet.ofBytes ((List.replicate n p).flatMap Packet.contents)) ↔
      n * p.length < 2 ^ 63 := by
  rw [Stream.gather_iff, List.map_replicate, List.sum_replicate, smul_eq_mul]
  intro q hq
  rw [List.eq_of_mem_replicate hq]
  exact Packet.length_contents hp

/-- Many windows of one large block: the sum of their lengths wraps to zero, so that the copying
loop starts on an empty buffer. -/
theorem gather_wraps :
    let p : Packet := Packet.ofBytes (List.replicate (2 ^ 40) 0)
    p.InBounds ∧ Stream.gather (List.replicate (2 ^ 24) p) ≠
      some (Packet.ofBytes ((List.replicate (2 ^ 24) p).flatMap Packet.contents)) := by
  intro p
  have hp : p.InBounds := Packet.inBounds_ofBytes (by rw [List.length_replicate]; omega)
  refine ⟨hp, ?_⟩
  rw [Ne, gather_replicate_iff hp, Packet.length_ofBytes, List.length_replicate]
  omega

end Wetnork.Reliable
