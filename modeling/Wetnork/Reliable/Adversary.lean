import Wetnork.Library.Simulation
import Wetnork.Reliable.Channel

/-! One channel against a network that may put in any frame at any time: what no peer can make it
do. -/
namespace Wetnork.Reliable

open ReliableChannel Simulation

/-- A call on the channel. The frames are arbitrary, and so is what listeners write. -/
inductive Input where
  | writePacket (packet : Packet.View)
  | transmitQueue (next : WriteResult)
  | readPacket (frame : Frame) (calls : List Packet)

/-- What the call does; `none` is undefined behaviour. -/
def Input.outcome (ch : ReliableChannel) : Input → Option (ReliableChannel × List Output)
  | .writePacket packet =>
    let (t, ok) := ch.writePacket packet.toPacket
    some (t, if ok then [.accepted packet.toPacket] else [])
  | .transmitQueue next => ch.transmitQueue next
  | .readPacket frame calls => ch.readPacket calls frame.1

def Input.step (ch : ReliableChannel) (input : Input) : ReliableChannel :=
  ((input.outcome ch).map Prod.fst).getD ch

def Input.shows (ch : ReliableChannel) (input : Input) : List Output :=
  ((input.outcome ch).map Prod.snd).getD []

def Output.isReceive : Output → Bool
  | .receive _ => true
  | _ => false

def Output.isAccepted : Output → Bool
  | .accepted _ => true
  | _ => false

/-- How many packets the slot holds. -/
def ReliableChannel.load (ch : ReliableChannel) : ℕ := if ch.inFlightPacket.isSome then 1 else 0

/-- The books of one call: its counters against what it showed. -/
structure Balanced (ch : ReliableChannel) (outputs : List Output) (t : ReliableChannel) : Prop where
  receives : ch.peerSeq.toNat + outputs.countP Output.isReceive ≤ t.peerSeq.toNat
  canSends : (ch.localSeq.toNat + outputs.countP (· = .canSend)) % 2 ^ 32 =
    t.localSeq.toNat % 2 ^ 32
  accepts : ch.load + outputs.countP Output.isAccepted ≤
    t.load + outputs.countP (· = .canSend)

variable {ch t u : ReliableChannel}

theorem balanced_refl (ch : ReliableChannel) : Balanced ch [] ch := ⟨le_rfl, rfl, le_rfl⟩

theorem balanced_trans {outputs more : List Output} (h : Balanced ch outputs t)
    (h' : Balanced t more u) : Balanced ch (outputs ++ more) u := by
  have hr := h.receives
  have hr' := h'.receives
  have hc := h.canSends
  have hc' := h'.canSends
  have ha := h.accepts
  have ha' := h'.accepts
  constructor
  · rw [List.countP_append]
    omega
  · rw [List.countP_append]
    omega
  · rw [List.countP_append, List.countP_append]
    omega

/-- Frames on their way out are not booked. -/
theorem balanced_write (ch : ReliableChannel) (frame : Packet) : Balanced ch [.write frame] ch :=
  ⟨le_rfl, rfl, le_rfl⟩

/-- Listeners get accepted at most what fits into the slot. -/
theorem balanced_signal (ch : ReliableChannel) (calls : List Packet) :
    Balanced ch (ch.signal calls).2 (ch.signal calls).1 := by
  rcases signal_eq ch calls with ⟨_, hr⟩ | ⟨_, _, hr⟩ | ⟨p, ps, hs, _, hr⟩
  · rw [hr]
    exact balanced_refl ch
  · rw [hr]
    exact balanced_refl ch
  · rw [hr]
    refine ⟨le_rfl, rfl, ?_⟩
    simp [load, hs, Output.isAccepted]

/-- Whatever was in the slot, an acknowledgement frees it. -/
theorem balanced_acked (ch : ReliableChannel) :
    Balanced ch [.canSend] { ch with
      localSeq := ch.localSeq + 1, inFlightPacket := none, timeout := false } := by
  refine ⟨le_rfl, ?_, ?_⟩
  · simp [UInt32.toNat_add]
  · simp only [load, Output.isAccepted, List.countP_singleton]
    split <;> simp

theorem balanced_received {seq : UInt32} (h : ch.peerSeq < seq) (packet : Packet) :
    Balanced ch [.receive packet] { ch with peerSeq := seq } := by
  refine ⟨?_, rfl, le_rfl⟩
  rw [UInt32.lt_iff_toNat_lt] at h
  simpa [Output.isReceive] using h

theorem balanced_readPacket (ch : ReliableChannel) (frame : Frame) (calls : List Packet) :
    ∃ t outputs, ch.readPacket calls frame.1 = some (t, outputs) ∧ Balanced ch outputs t := by
  rcases readPacket_cases ch calls (ofData_header frame) with
    ⟨_, _, hr⟩ | ⟨_, hn, hr⟩ | ⟨_, _, hr⟩ | ⟨_, _, hr⟩
  · exact ⟨_, _, hr, balanced_trans (balanced_acked ch) (balanced_signal _ calls)⟩
  · refine ⟨_, _, hr, ?_⟩
    have hs := balanced_trans (balanced_received hn
      (frame.1.skip ReliablePacketHeader.size)) (balanced_signal _ calls)
    exact balanced_trans hs (balanced_write _ _)
  · exact ⟨_, _, hr, balanced_write ch _⟩
  · exact ⟨_, _, hr, balanced_refl ch⟩

theorem balanced_transmitQueue {next : WriteResult} {r : ReliableChannel × List Output}
    (h : ch.transmitQueue next = some r) : Balanced ch r.2 r.1 := by
  cases hs : ch.inFlightPacket with
  | none =>
    simp only [transmitQueue, hs, Option.some.injEq] at h
    rw [← h]
    exact balanced_refl ch
  | some p =>
    simp only [transmitQueue, hs, Option.bind_eq_bind, Option.bind_eq_some_iff] at h
    obtain ⟨frame, -, hn⟩ := h
    cases next with
    | threw =>
      cases hn
      exact balanced_write ch frame
    | returned ok =>
      cases hn
      exact ⟨le_rfl, rfl, by simp [load, hs, Output.isAccepted]⟩

/-- Every call keeps the books. -/
theorem balanced_step (ch : ReliableChannel) (input : Input) :
    Balanced ch (input.shows ch) (input.step ch) := by
  cases input with
  | writePacket packet =>
    cases hs : ch.inFlightPacket with
    | some p =>
      simp only [Input.shows, Input.step, Input.outcome, writePacket, hs]
      exact balanced_refl ch
    | none =>
      simp only [Input.shows, Input.step, Input.outcome, writePacket, hs]
      refine ⟨le_rfl, rfl, ?_⟩
      simp [load, hs, Output.isAccepted]
  | transmitQueue next =>
    cases hr : ch.transmitQueue next with
    | none =>
      simp only [Input.shows, Input.step, Input.outcome, hr]
      exact balanced_refl ch
    | some r =>
      simpa only [Input.shows, Input.step, Input.outcome, hr, Option.map_some, Option.getD_some]
        using balanced_transmitQueue hr
  | readPacket frame calls =>
    obtain ⟨t, outputs, hr, hb⟩ := balanced_readPacket ch frame calls
    simpa only [Input.shows, Input.step, Input.outcome, hr, Option.map_some, Option.getD_some]
      using hb

/-- A data frame leaves the counter at least at its number. -/
theorem peerSeq_readPacket (ch : ReliableChannel) (frame : Frame) (calls : List Packet)
    (hf : frame.header.flags = 0) :
    frame.header.seq.toNat ≤ ((Input.readPacket frame calls).step ch).peerSeq.toNat := by
  rcases readPacket_cases ch calls (ofData_header frame) with
    ⟨ha, _, _⟩ | ⟨_, _, hr⟩ | ⟨_, hn, hr⟩ | ⟨hz, _, _⟩
  · simp [hf] at ha
  · simp [Input.step, Input.outcome, hr, (signal_keeps _ calls).1]
  · rw [UInt32.lt_iff_toNat_lt] at hn
    simp [Input.step, Input.outcome, hr]
    omega
  · exact absurd hf hz

/-- Against any peer, forger or not: a channel emits `receive` at most `peerSeq` times and so less
than `2^32` times in its life; `localSeq` counts the `canSend` signals; no more packets are
accepted than `canSend` was emitted, but for the one in the slot. And a single data frame with the
largest number silences the channel for good, whatever else arrives. -/
theorem lifetime_bounds (cid : UInt8) (inputs : List Input) :
    let ch := Runs.run Input.step (new cid) inputs
    let outputs := trace Input.step Input.shows (new cid) inputs
    outputs.countP Output.isReceive ≤ ch.peerSeq.toNat ∧
    outputs.countP (· = .canSend) % 2 ^ 32 = ch.localSeq.toNat ∧
    outputs.countP Output.isAccepted ≤ outputs.countP (· = .canSend) + ch.load ∧
    ∀ frame calls more, frame.header.flags = 0 → frame.header.seq.toNat = 2 ^ 32 - 1 →
      (trace Input.step Input.shows ((Input.readPacket frame calls).step ch) more).countP
        Output.isReceive = 0 := by
  intro ch outputs
  have hreceives : ∀ (c : ReliableChannel) (l : List Input),
      c.peerSeq.toNat + (trace Input.step Input.shows c l).countP Output.isReceive ≤
        (Runs.run Input.step c l).peerSeq.toNat := by
    intro c l
    have h := countP_trace_le (f := fun c : ReliableChannel => c.peerSeq.toNat) (s := c)
      (q := fun _ => false) (fun c input => by simpa using (balanced_step c input).receives) l
    simpa using h
  have hcanSends := countP_trace_mod (f := fun c : ReliableChannel => c.localSeq.toNat)
    (s := new cid) (fun c input => (balanced_step c input).canSends) inputs
  have haccepts := countP_trace_le (f := load) (s := new cid)
    (fun c input => (balanced_step c input).accepts) inputs
  refine ⟨?_, ?_, ?_, ?_⟩
  · exact (Nat.le_add_left _ _).trans (hreceives (new cid) inputs)
  · rw [Nat.mod_eq_of_lt (UInt32.toNat_lt _)] at hcanSends
    exact (congrArg (· % 2 ^ 32) (Nat.zero_add _)).symm.trans hcanSends
  · have hz : (new cid).load = 0 := rfl
    rw [hz, Nat.zero_add] at haccepts
    exact haccepts.trans_eq (Nat.add_comm _ _)
  · intro frame calls more hf hmax
    have hpeer := peerSeq_readPacket ch frame calls hf
    have hrest := hreceives ((Input.readPacket frame calls).step ch) more
    have hlt := (Runs.run Input.step ((Input.readPacket frame calls).step ch) more).peerSeq.toNat_lt
    omega

end Wetnork.Reliable
