import Wetnork.Packet

/-! The tunnel's data path: tun device, unreliable channel, link, and back. -/
namespace Wetnork.Tunnel

/-- What leaves a call abnormally; `outOfBounds` is a read that C++ leaves undefined. -/
inductive Fault where
  | invalidOperation (what : String)
  | invalidArgument (what : String)
  | outOfBounds
deriving DecidableEq, Repr

namespace UnreliablePacketHeader

/-- `sizeof(uint8_t)`. -/
def size : ℕ := 1

/-- `operator Packet()` on the header of channel `cid`. -/
def toPacket (cid : UInt8) : Packet := Packet.ofBytes [cid]

end UnreliablePacketHeader

namespace UnreliableChannel

/-- `next.write(header, packet)`; the frame that reaches the link's `write(const Packet&)`. -/
def writePacket (cid : UInt8) (packet : Packet) : Option Packet :=
  Stream.gather [UnreliablePacketHeader.toPacket cid, packet]

/-- The packet passed to the `receive` signal. -/
def readPacket (packet : Packet) : Packet := packet.skip UnreliablePacketHeader.size

end UnreliableChannel

def DataChannelId : UInt8 := 0

/-- The one channel a tunnel owns. -/
inductive Channel where
  | dataChannel
deriving DecidableEq, Repr

/-- The reliable branch is empty in the source, so it falls through to the `throw`. -/
def getChannel (id : UInt8) (reliable : Bool) : Except Fault Channel :=
  if reliable then .error (.invalidArgument "id")
  else if id = 0 then .ok .dataChannel
  else .error (.invalidArgument "id")

/-- The packets `tun->write` gets: `dataRead` is the one listener of the data channel. -/
def dataRead (packet : Packet) : List Packet := [packet]

/-- `Tunnel::propagate` with what it makes the tun device write. -/
def propagate (packet : Packet) : Except Fault (List Packet) := do
  if packet.length = 0 then
    throw (.invalidOperation "Packet too short")
  match packet.byte 0 with
  | none => throw .outOfBounds
  | some channel =>
    let reliableChannel := channel &&& 0x80 != 0
    match ← getChannel (channel &&& ~~~0x80) reliableChannel with
    | .dataChannel => return dataRead (UnreliableChannel.readPacket (packet.skip 1))

/-- `Tunnel::tunRead`: the frame written to the link for a packet of the tun device. -/
def tunRead (packet : Packet) : Option Packet := UnreliableChannel.writePacket DataChannelId packet

/-- The byte strings the tun device gets to write when the tunnel is handed `packet`. -/
def tunWrites (packet : Packet) : List Bytes :=
  match propagate packet with
  | .ok packets => packets.map Packet.contents
  | .error _ => []

variable {p : Packet}

theorem channel_bits (channel : UInt8) :
    channel &&& 0x80 = 0 ∧ channel &&& ~~~0x80 = 0 ↔ channel = 0 := by
  have bits : ∀ b : BitVec 8, b &&& 0x80#8 = 0 ∧ b &&& ~~~0x80#8 = 0 ↔ b = 0 := by decide
  simp only [← UInt8.toBitVec_inj]
  exact bits channel.toBitVec

/-- Only the byte zero selects the data channel. -/
theorem getChannel_eq (channel : UInt8) :
    getChannel (channel &&& ~~~0x80) (channel &&& 0x80 != 0) =
      if channel = 0 then .ok .dataChannel else .error (.invalidArgument "id") := by
  have hbits := channel_bits channel
  unfold getChannel
  by_cases hr : channel &&& 0x80 = 0
  · by_cases hi : channel &&& ~~~0x80 = 0
    · simp [hbits.mp ⟨hr, hi⟩]
    · have hne : channel ≠ 0 := fun h => hi (hbits.mpr h).2
      simp [hr, hi, hne]
  · have hne : channel ≠ 0 := fun h => hr (hbits.mpr h).1
    simp [hr, hne]

/-- `propagate` strips one byte and the channel's `readPacket` strips one more. -/
theorem tunWrites_eq (h : p.InBounds) :
    tunWrites p = if p.contents.head? = some 0 then [p.contents.drop 2] else [] := by
  have hl := Packet.length_contents h
  by_cases hz : p.length = 0
  · have hnil : p.contents = [] := List.length_eq_zero_iff.mp (hl.trans hz)
    simp [tunWrites, propagate, hz, hnil, throw, throwThe, MonadExceptOf.throw, bind, Except.bind]
  · have hb := Packet.byte_eq h (i := 0) (by omega)
    obtain ⟨c, cs, hc⟩ : ∃ c cs, p.contents = c :: cs :=
      List.exists_cons_of_ne_nil (by intro hn; simp [hn] at hl; omega)
    have hskip : (UnreliableChannel.readPacket (p.skip 1)).contents = p.contents.drop 2 := by
      rw [UnreliableChannel.readPacket, Packet.skip_contents (Packet.skip_inBounds h),
        Packet.skip_contents h, List.drop_drop]
      rfl
    have hp : propagate p = (getChannel (c &&& ~~~0x80) (c &&& 0x80 != 0)).map
        (fun _ => dataRead (UnreliableChannel.readPacket (p.skip 1))) := by
      simp only [propagate, hz, if_false, hb, hc]
      cases hg : getChannel (c &&& ~~~0x80) (c &&& 0x80 != 0) <;>
        simp [bind, Except.bind, pure, Except.pure, Except.map, hg]
    rw [tunWrites, hp, getChannel_eq]
    by_cases h0 : c = 0 <;> simp [h0, hc, Except.map, dataRead, hskip]

theorem tunRead_eq (h : p.InBounds) (hr : p.length < 2 ^ 62) :
    tunRead p = some (Packet.ofBytes (DataChannelId :: p.contents)) := by
  have hh : (UnreliablePacketHeader.toPacket DataChannelId).InBounds :=
    Packet.inBounds_ofBytes (by simp)
  rw [tunRead, UnreliableChannel.writePacket, (Stream.gather_header_iff hh h).mpr]
  · simp [UnreliablePacketHeader.toPacket]
  · simp only [UnreliablePacketHeader.toPacket, Packet.length_ofBytes, List.length_singleton]
    omega

/-- What the data path is for: the channel byte selects the tun device and is removed once. -/
def demultiplexed (bytes : Bytes) : List Bytes :=
  if bytes.head? = some 0 then [bytes.drop 1] else []

theorem drop_two_eq_drop_one (bytes : Bytes) :
    bytes.drop 2 = bytes.drop 1 ↔ bytes.length ≤ 1 := by
  constructor
  · intro h
    have hl := congrArg List.length h
    simp only [List.length_drop] at hl
    omega
  · intro h
    rw [List.drop_eq_nil_of_le h, List.drop_eq_nil_of_le (by omega)]

/-- The channel byte is removed twice, so the tun device gets what it should exactly when there
is no second byte to lose: no frame of the data channel with a payload survives. -/
theorem data_path_iff_no_payload (p : Packet.View) :
    (tunWrites p.toPacket = demultiplexed p.contents ↔
      (p.contents.head? = some 0 → p.contents = [0])) ∧
    ∃ frame, tunRead p.toPacket = some frame ∧
      (tunWrites frame = [p.contents] ↔ p.contents = []) := by
  have hl := Packet.length_contents p.inBounds
  have hr := p.room
  constructor
  · rw [tunWrites_eq p.inBounds, demultiplexed]
    cases hc : p.contents with
    | nil => simp
    | cons c cs =>
      by_cases h0 : c = 0
      · have hd := drop_two_eq_drop_one (0 :: cs)
        have hn : (0 :: cs).length ≤ 1 ↔ cs = [] := by simp
        simpa [h0, hn] using hd
      · simp [h0]
  · refine ⟨_, tunRead_eq p.inBounds hr, ?_⟩
    have hs : (DataChannelId :: p.contents).length < 2 ^ 63 := by
      rw [List.length_cons, hl]
      omega
    rw [tunWrites_eq (Packet.inBounds_ofBytes hs), Packet.contents_ofBytes]
    cases p.contents with
    | nil => simp [DataChannelId]
    | cons c cs => simp [DataChannelId]

/-- The one-byte payload of a data frame never arrives, also through the tunnel's own encoder. -/
theorem data_path_loses_payload :
    tunWrites (Packet.ofBytes [0, 42]) ≠ demultiplexed [0, 42] ∧
    (tunRead (Packet.ofBytes [42])).map tunWrites ≠ some [[42]] := by
  decide

end Wetnork.Tunnel
