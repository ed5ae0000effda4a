import Wetnork.Reliable.Channel

/-! What `readPacket` reads of a packet, and what it does to packets without a header. -/
namespace Wetnork.Reliable

variable {p q : Packet} {ch : ReliableChannel} {calls : List Packet}

/-- The same bytes in an allocation of their own, in which no other byte can be read. -/
def isolated (p : Packet) : Packet := Packet.ofBytes p.contents

/-- An output without the block that a packet passed on is a window of. -/
def Output.isolated : Output → Output
  | .receive packet => .receive (Reliable.isolated packet)
  | output => output

/-- The outcome of a call as far as the channel, the frames and the signals are concerned. -/
def outcome (ch : ReliableChannel) (calls : List Packet) (p : Packet) :
    Option (ReliableChannel × List Output) :=
  (ch.readPacket calls p).map fun r => (r.1, r.2.map Output.isolated)

/-- `readPacket` keeps to the packet: it reads nothing that its bytes alone do not hold, what lies
around them makes no difference, and without a whole header nothing happens. -/
structure Contained (ch : ReliableChannel) (calls : List Packet) (p : Packet) : Prop where
  reads : (ch.readPacket calls (isolated p)).isSome
  independent : ∀ q : Packet, q.InBounds → q.length = p.length → q.contents = p.contents →
    outcome ch calls q = outcome ch calls p
  short : p.length < ReliablePacketHeader.size → ch.readPacket calls p = some (ch, [])

theorem isolated_inBounds (hp : p.InBounds) : (isolated p).InBounds := by
  apply Packet.inBounds_ofBytes
  have hl := Packet.length_contents hp
  have := Packet.length_lt hp
  omega

theorem isolated_length (hp : p.InBounds) : (isolated p).length = p.length :=
  Packet.length_contents hp

theorem isolated_contents (p : Packet) : (isolated p).contents = p.contents :=
  Packet.contents_ofBytes _

/-- The header takes all of its six bytes. -/
theorem ofData_eq_none {i : ℕ} (hi : i < ReliablePacketHeader.size) (h : p.byte i = none) :
    ReliablePacketHeader.ofData p = none := by
  unfold ReliablePacketHeader.size at hi
  interval_cases i <;> simp [ReliablePacketHeader.ofData, h]

/-- In an allocation of fewer bytes the header cannot be read. -/
theorem readPacket_isolated (ch : ReliableChannel) (calls : List Packet) (hp : p.InBounds)
    (hs : p.length < ReliablePacketHeader.size) : ch.readPacket calls (isolated p) = none := by
  have hl := Packet.length_contents hp
  have hnone : (isolated p).byte p.length = none := by
    simp [isolated, Packet.byte, Packet.ofBytes, hl]
  simp [ReliableChannel.readPacket, ofData_eq_none hs hnone]

/-- Behind a whole header the packet alone decides what is read of it. -/
theorem ofData_congr (hp : p.InBounds) (hq : q.InBounds) (hl : q.length = p.length)
    (hc : q.contents = p.contents) (hs : ReliablePacketHeader.size ≤ p.length) :
    ReliablePacketHeader.ofData q = ReliablePacketHeader.ofData p := by
  unfold ReliablePacketHeader.size at hs
  have hbyte : ∀ i < 6, q.byte i = p.byte i := by
    intro i hi
    rw [Packet.byte_eq hq (by omega), Packet.byte_eq hp (by omega), hc]
  simp only [ReliablePacketHeader.ofData, hbyte 0 (by omega), hbyte 1 (by omega),
    hbyte 2 (by omega), hbyte 3 (by omega), hbyte 4 (by omega), hbyte 5 (by omega)]

theorem outcome_congr (ch : ReliableChannel) (calls : List Packet) (hp : p.InBounds)
    (hq : q.InBounds) (hl : q.length = p.length) (hc : q.contents = p.contents)
    (hs : ReliablePacketHeader.size ≤ p.length) : outcome ch calls q = outcome ch calls p := by
  have hskip : isolated (q.skip ReliablePacketHeader.size) =
      isolated (p.skip ReliablePacketHeader.size) := by
    rw [isolated, isolated, Packet.skip_contents hp, Packet.skip_contents hq, hc]
  obtain ⟨h, hh⟩ := ofData_frame ⟨p, hp, hs⟩
  have hh' : ReliablePacketHeader.ofData q = some h := (ofData_congr hp hq hl hc hs).trans hh
  simp only [outcome, ReliableChannel.readPacket, hh, hh', ReliableChannel.gather_ack,
    Option.bind_eq_bind, Option.bind_some]
  -- the two sides differ in the block of the packet that is passed on, if one is
  split_ifs <;> simp [Output.isolated, hskip]

theorem contained_of_header (ch : ReliableChannel) (calls : List Packet) (hp : p.InBounds)
    (hs : ReliablePacketHeader.size ≤ p.length) : Contained ch calls p := by
  refine ⟨?_, ?_, ?_⟩
  · obtain ⟨h, hh⟩ := ofData_frame ⟨isolated p, isolated_inBounds hp, by rwa [isolated_length hp]⟩
    rcases ReliableChannel.readPacket_cases ch calls hh with
      ⟨_, _, hr⟩ | ⟨_, _, hr⟩ | ⟨_, _, hr⟩ | ⟨_, _, hr⟩ <;> simp [hr]
  · intro q hq hl hc
    exact outcome_congr ch calls hp hq hl hc hs
  · intro hn
    omega

/-- `readPacket` keeps to the packets that hold a header, and to no others: nothing looks at the
length before six bytes are read. -/
theorem contained_iff_header (ch : ReliableChannel) (calls : List Packet)
    (p : { p : Packet // p.InBounds }) :
    Contained ch calls p.1 ↔ ReliablePacketHeader.size ≤ p.1.length := by
  constructor
  · intro h
    by_contra hs
    have hn := readPacket_isolated ch calls p.2 (not_le.mp hs)
    have hr := h.reads
    simp [hn] at hr
  · exact contained_of_header ch calls p.2

/-- One byte of a larger buffer is taken for a data frame: its neighbours are read as a header,
the counter follows them, an empty payload is passed on and an acknowledgement written. In a
buffer of its own the same byte cannot be read as a header at all. -/
theorem neighbours_read :
    let p : Packet := ⟨[1, 0, 0, 0, 0, 9, 42], 0, 1⟩
    p.InBounds ∧ ¬ Contained (.new 1) [] p ∧
    (ReliableChannel.readPacket [] (.new 1) p).map (fun r => (r.1.peerSeq,
      r.2.filterMap Output.payload?, r.2.filterMap Output.frame?)) =
        some (9, [[]], [ReliableChannel.ackFrame (.new 1) 9]) ∧
    ReliableChannel.readPacket [] (.new 1) (isolated p) = none := by
  intro p
  have hn : ReliableChannel.readPacket [] (.new 1) (isolated p) = none := by decide
  refine ⟨by decide, fun h => ?_, by decide, hn⟩
  have hr := h.reads
  simp [hn] at hr

end Wetnork.Reliable
