import Wetnork.Packet

/-! `Tunnel::ReliableChannel`: one packet in flight, a timer, two sequence counters. -/
namespace Wetnork.Reliable

/-- The packed header; `seq` is the host-order value of the big-endian field. -/
structure ReliablePacketHeader where
  cid : UInt8
  flags : UInt8
  seq : UInt32
deriving DecidableEq, Repr

namespace ReliablePacketHeader

def ACK : UInt8 := 0x01

/-- `sizeof(header_t)`. -/
def size : ℕ := 6

/-- `htonl` followed by a store: the most significant byte comes first. -/
def htonl (seq : UInt32) : Bytes :=
  [UInt8.ofNat (seq.toNat / 2 ^ 24), UInt8.ofNat (seq.toNat / 2 ^ 16),
    UInt8.ofNat (seq.toNat / 2 ^ 8), UInt8.ofNat seq.toNat]

/-- A load followed by `ntohl`. -/
def ntohl (b₀ b₁ b₂ b₃ : UInt8) : UInt32 :=
  UInt32.ofNat (b₀.toNat * 2 ^ 24 + b₁.toNat * 2 ^ 16 + b₂.toNat * 2 ^ 8 + b₃.toNat)

def bytes (h : ReliablePacketHeader) : Bytes := h.cid :: h.flags :: htonl h.seq

/-- `operator Packet()`. -/
def toPacket (h : ReliablePacketHeader) : Packet := Packet.ofBytes h.bytes

/-- `ReliablePacketHeader(packet.data())`. The constructor gets a bare pointer, so it reads
six bytes whatever the length of the packet; `none` is a read outside the allocation. -/
def ofData (packet : Packet) : Option ReliablePacketHeader := do
  let cid ← packet.byte 0
  let flags ← packet.byte 1
  let b₀ ← packet.byte 2
  let b₁ ← packet.byte 3
  let b₂ ← packet.byte 4
  let b₃ ← packet.byte 5
  return ⟨cid, flags, ntohl b₀ b₁ b₂ b₃⟩

theorem ntohl_htonl (seq : UInt32) :
    ntohl (UInt8.ofNat (seq.toNat / 2 ^ 24)) (UInt8.ofNat (seq.toNat / 2 ^ 16))
      (UInt8.ofNat (seq.toNat / 2 ^ 8)) (UInt8.ofNat seq.toNat) = seq := by
  have := seq.toNat_lt
  apply UInt32.toNat_inj.mp
  simp only [ntohl, UInt8.toNat_ofNat', UInt32.toNat_ofNat']
  omega

@[simp] theorem length_bytes (h : ReliablePacketHeader) : h.bytes.length = size := rfl

theorem toPacket_inBounds (h : ReliablePacketHeader) : h.toPacket.InBounds :=
  Packet.inBounds_ofBytes (by simp [size])

/-- A frame that starts with an encoded header decodes to it. -/
theorem ofData_ofBytes (h : ReliablePacketHeader) (payload : Bytes) :
    ofData (Packet.ofBytes (h.bytes ++ payload)) = some h := by
  obtain ⟨cid, flags, seq⟩ := h
  simp [ofData, Packet.byte, Packet.ofBytes, bytes, htonl]
  simpa using ntohl_htonl seq

/-- What is written for a header and a payload. -/
theorem gather_frame (h : ReliablePacketHeader) {p : Packet} (hp : p.InBounds)
    (hs : size + p.length < 2 ^ 63) :
    Stream.gather [h.toPacket, p] = some (Packet.ofBytes (h.bytes ++ p.contents)) := by
  rw [(Stream.gather_header_iff h.toPacket_inBounds hp).mpr]
  · simp [toPacket]
  · simpa [toPacket] using hs

/-- Stripping the header of a frame gives back the payload. -/
theorem skip_frame (h : ReliablePacketHeader) (payload : Bytes) :
    ((Packet.ofBytes (h.bytes ++ payload)).skip size).contents = payload := by
  have hs : ¬ size > size + payload.length := by
    omega
  have ho : Int.bmod (0 + size) (2 ^ 64) = size := by
    decide
  simp only [Packet.contents, Packet.skip, Packet.ofBytes, List.length_append, length_bytes,
    if_neg hs, ho, Int.toNat_natCast, Nat.add_sub_cancel_left]
  rw [List.drop_left' h.length_bytes, List.take_length]

end ReliablePacketHeader

/-- `timeout` is whether the libev timer is active. -/
structure ReliableChannel where
  cid : UInt8
  timeout : Bool
  inFlightPacket : Option Packet
  localSeq : UInt32
  peerSeq : UInt32
deriving DecidableEq, Repr

/-- What a call of `next.write` does to its caller. -/
inductive WriteResult where
  | returned (accepted : Bool)
  | threw
deriving DecidableEq, Repr

/-- What the outside sees of one call, in order: frames handed to `next.write`, signals,
and the packets that listeners got accepted by `writePacket` inside those signals. -/
inductive Output where
  | write (frame : Packet)
  | receive (packet : Packet)
  | canSend
  | accepted (packet : Packet)
deriving DecidableEq, Repr

/-- The payload emitted through `receive`, if that is what an output is. -/
def Output.payload? : Output → Option Bytes
  | .receive packet => some packet.contents
  | _ => none

/-- The frame handed to `next.write`, if that is what an output is. -/
def Output.frame? : Output → Option Packet
  | .write frame => some frame
  | _ => none

namespace ReliableChannel

/-- The constructor. -/
def new (cid : UInt8) : ReliableChannel := ⟨cid, false, none, 0, 0⟩

/-- `next.write(header, packet)`; the frame that reaches `write(const Packet&)`. -/
def transmitPacket (ch : ReliableChannel) (packet : Packet) : Option Packet :=
  Stream.gather [(ReliablePacketHeader.mk ch.cid 0 ch.localSeq).toPacket, packet]

/-- The timer is set and started only after `transmitPacket` has returned. -/
def transmitQueue (next : WriteResult) (ch : ReliableChannel) :
    Option (ReliableChannel × List Output) :=
  match ch.inFlightPacket with
  | none => some (ch, [])
  | some packet => do
    let frame ← ch.transmitPacket packet
    match next with
    | .threw => some (ch, [.write frame])
    | .returned _ => some ({ ch with timeout := true }, [.write frame])

/-- Expiry of the active one-shot timer (repeat 0): libev deactivates it, then calls `onTimeout`. -/
def onTimeout (next : WriteResult) (ch : ReliableChannel) :
    Option (ReliableChannel × List Output) :=
  transmitQueue next { ch with timeout := false }

/-- Stores the packet; neither transmits it nor starts the timer. -/
def writePacket (ch : ReliableChannel) (packet : Packet) : ReliableChannel × Bool :=
  match ch.inFlightPacket with
  | some _ => (ch, false)
  | none => ({ ch with inFlightPacket := some packet }, true)

/-- Listeners of one signal call `writePacket` on these packets, one after another. -/
def signal (ch : ReliableChannel) : List Packet → ReliableChannel × List Output
  | [] => (ch, [])
  | packet :: packets =>
    match ch.writePacket packet with
    | (ch, true) =>
      let (ch, outputs) := ch.signal packets
      (ch, .accepted packet :: outputs)
    | (ch, false) => ch.signal packets

/-- `calls` is what listeners write from inside the signal, if one is emitted. The acknowledgement
is the last statement, so whatever `next.write` does with it leaves the channel alone. -/
def readPacket (calls : List Packet) (ch : ReliableChannel) (packet : Packet) :
    Option (ReliableChannel × List Output) := do
  let header ← ReliablePacketHeader.ofData packet
  if header.flags &&& ReliablePacketHeader.ACK ≠ 0 ∧ ch.localSeq = header.seq then
    let ch := { ch with localSeq := ch.localSeq + 1, inFlightPacket := none, timeout := false }
    let (ch, outputs) := ch.signal calls
    return (ch, .canSend :: outputs)
  else if header.flags = 0 then
    let ackHeader : ReliablePacketHeader := ⟨ch.cid, ReliablePacketHeader.ACK, header.seq⟩
    let ack ← Stream.gather [ackHeader.toPacket]
    if ch.peerSeq < header.seq then
      let ch := { ch with peerSeq := header.seq }
      let (ch, outputs) := ch.signal calls
      return (ch, .receive (packet.skip ReliablePacketHeader.size) :: outputs ++ [Output.write ack])
    else
      return (ch, [.write ack])
  else
    return (ch, [])

variable {ch : ReliableChannel}

/-- Listeners touch only the slot, and only the first of their packets can enter it. -/
theorem signal_eq (ch : ReliableChannel) (calls : List Packet) :
    (ch.inFlightPacket.isSome ∧ ch.signal calls = (ch, [])) ∨
    (ch.inFlightPacket = none ∧ calls = [] ∧ ch.signal calls = (ch, [])) ∨
    (∃ p ps, ch.inFlightPacket = none ∧ calls = p :: ps ∧
      ch.signal calls = ({ ch with inFlightPacket := some p }, [.accepted p])) := by
  have full : ∀ (c : ReliableChannel) (ps : List Packet), c.inFlightPacket.isSome →
      c.signal ps = (c, []) := by
    intro c ps hc
    obtain ⟨q, hq⟩ := Option.isSome_iff_exists.mp hc
    induction ps with
    | nil => rfl
    | cons p ps ih => simp [signal, writePacket, hq, ih]
  cases hs : ch.inFlightPacket with
  | some q => exact Or.inl ⟨rfl, full ch calls (by simp [hs])⟩
  | none =>
    cases calls with
    | nil => exact Or.inr (Or.inl ⟨rfl, rfl, rfl⟩)
    | cons p ps =>
      refine Or.inr (Or.inr ⟨p, ps, rfl, rfl, ?_⟩)
      simp [signal, writePacket, hs, full]

/-- The acknowledgement frame as it reaches `write(const Packet&)`. -/
def ackFrame (ch : ReliableChannel) (seq : UInt32) : Packet :=
  Packet.ofBytes (ReliablePacketHeader.mk ch.cid ReliablePacketHeader.ACK seq).bytes

/-- The data frame that carries a payload under the current sequence number. -/
def dataFrame (ch : ReliableChannel) (payload : Bytes) : Packet :=
  Packet.ofBytes ((ReliablePacketHeader.mk ch.cid 0 ch.localSeq).bytes ++ payload)

theorem gather_ack (ch : ReliableChannel) (seq : UInt32) :
    Stream.gather [(ReliablePacketHeader.mk ch.cid ReliablePacketHeader.ACK seq).toPacket] =
      some (ch.ackFrame seq) := by
  rw [Stream.gather_eq]
  · simp [ReliablePacketHeader.toPacket, ackFrame]
  · simp [ReliablePacketHeader.toPacket_inBounds]
  · simp [ReliablePacketHeader.toPacket, ReliablePacketHeader.size]

theorem transmitPacket_eq (v : Packet.View) :
    ch.transmitPacket v.toPacket = some (ch.dataFrame v.contents) := by
  have hr := v.room
  refine ReliablePacketHeader.gather_frame _ v.inBounds ?_
  rw [ReliablePacketHeader.size]
  omega

/-- Transmitting a full slot always writes the same frame; only the timer depends on `next`. -/
theorem transmitQueue_eq {v : Packet.View} (hs : ch.inFlightPacket = some v.toPacket)
    (next : WriteResult) :
    ch.transmitQueue next = some ({ ch with timeout := ch.timeout || next != .threw },
      [.write (ch.dataFrame v.contents)]) := by
  simp only [transmitQueue, hs, transmitPacket_eq v, Option.bind_eq_bind,
    Option.bind_some]
  cases next <;> simp [← hs]

theorem signal_keeps (ch : ReliableChannel) (calls : List Packet) :
    (ch.signal calls).1.peerSeq = ch.peerSeq ∧ (ch.signal calls).1.cid = ch.cid := by
  rcases signal_eq ch calls with ⟨_, hr⟩ | ⟨_, _, hr⟩ | ⟨p, ps, _, _, hr⟩ <;> simp [hr]

/-- Everything `readPacket` can do with a packet whose header is readable. -/
theorem readPacket_cases (ch : ReliableChannel) (calls : List Packet) {packet : Packet}
    {h : ReliablePacketHeader} (hh : ReliablePacketHeader.ofData packet = some h) :
    (h.flags &&& ReliablePacketHeader.ACK ≠ 0 ∧ ch.localSeq = h.seq ∧
      ch.readPacket calls packet =
        let r := { ch with localSeq := ch.localSeq + 1, inFlightPacket := none,
                           timeout := false }.signal calls
        some (r.1, .canSend :: r.2)) ∨
    (h.flags = 0 ∧ ch.peerSeq < h.seq ∧
      ch.readPacket calls packet =
        let r := { ch with peerSeq := h.seq }.signal calls
        some (r.1, .receive (packet.skip ReliablePacketHeader.size) :: r.2 ++
          [.write (ch.ackFrame h.seq)])) ∨
    (h.flags = 0 ∧ ¬ ch.peerSeq < h.seq ∧
      ch.readPacket calls packet = some (ch, [.write (ch.ackFrame h.seq)])) ∨
    (h.flags ≠ 0 ∧ ¬ (h.flags &&& ReliablePacketHeader.ACK ≠ 0 ∧ ch.localSeq = h.seq) ∧
      ch.readPacket calls packet = some (ch, [])) := by
  by_cases ha : h.flags &&& ReliablePacketHeader.ACK ≠ 0 ∧ ch.localSeq = h.seq
  · refine Or.inl ⟨ha.1, ha.2, ?_⟩
    simp only [readPacket, hh, Option.bind_eq_bind, Option.bind_some, if_pos ha]
    rfl
  · by_cases hf : h.flags = 0
    · by_cases hs : ch.peerSeq < h.seq
      · refine Or.inr (Or.inl ⟨hf, hs, ?_⟩)
        simp only [readPacket, hh, Option.bind_eq_bind, Option.bind_some, if_neg ha, if_pos hf,
          if_pos hs, gather_ack]
        rfl
      · refine Or.inr (Or.inr (Or.inl ⟨hf, hs, ?_⟩))
        simp only [readPacket, hh, Option.bind_eq_bind, Option.bind_some, if_neg ha, if_pos hf,
          if_neg hs, gather_ack]
        rfl
    · refine Or.inr (Or.inr (Or.inr ⟨hf, ha, ?_⟩))
      simp only [readPacket, hh, Option.bind_eq_bind, Option.bind_some, if_neg ha, if_neg hf]
      rfl

end ReliableChannel

/-- A frame that really holds the header `readPacket` reads. -/
abbrev Frame := { p : Packet // p.InBounds ∧ ReliablePacketHeader.size ≤ p.length }

theorem ofData_frame (frame : Frame) : ∃ h, ReliablePacketHeader.ofData frame.1 = some h := by
  obtain ⟨p, hp, hs⟩ := frame
  have byte : ∀ i < 6, ∃ b, p.byte i = some b := by
    intro i hi
    rw [Packet.byte_eq hp (by unfold ReliablePacketHeader.size at hs; omega)]
    have hl := Packet.length_contents hp
    unfold ReliablePacketHeader.size at hs
    exact ⟨_, List.getElem?_eq_getElem (by omega)⟩
  obtain ⟨b₀, h₀⟩ := byte 0 (by omega)
  obtain ⟨b₁, h₁⟩ := byte 1 (by omega)
  obtain ⟨b₂, h₂⟩ := byte 2 (by omega)
  obtain ⟨b₃, h₃⟩ := byte 3 (by omega)
  obtain ⟨b₄, h₄⟩ := byte 4 (by omega)
  obtain ⟨b₅, h₅⟩ := byte 5 (by omega)
  exact ⟨_, by simp only [ReliablePacketHeader.ofData, h₀, h₁, h₂, h₃, h₄, h₅]; rfl⟩

/-- The header that `readPacket` finds in a frame. -/
def Frame.header (f : Frame) : ReliablePacketHeader :=
  (ReliablePacketHeader.ofData f.1).get (Option.isSome_iff_exists.mpr (ofData_frame f))

theorem ofData_header (f : Frame) : ReliablePacketHeader.ofData f.1 = some f.header :=
  (Option.some_get _).symm

end Wetnork.Reliable
