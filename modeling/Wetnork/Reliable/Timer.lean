import Wetnork.Library.Runs
import Wetnork.Reliable.Channel

/-! The retransmission timer of one channel, over arbitrary event sequences. -/
namespace Wetnork.Reliable

open ReliableChannel
open Runs (Along)

/-- Listeners write `calls` from inside the signal of a frame, if it causes one. -/
inductive Event where
  | writePacket (packet : Packet.View)
  | readPacket (frame : Frame) (calls : List Packet.View)
  | expire (next : WriteResult)

/-- One event as libev and the tunnel raise it; only an active timer expires. -/
def step (ch : ReliableChannel) : Event → ReliableChannel
  | .writePacket packet => (ch.writePacket packet.toPacket).1
  | .readPacket frame calls =>
    ((ch.readPacket (calls.map Packet.View.toPacket) frame.1).map Prod.fst).getD ch
  | .expire next => if ch.timeout then ((ch.onTimeout next).map Prod.fst).getD ch else ch

/-- The slot is full exactly while a retransmission is pending. -/
def Armed (ch : ReliableChannel) : Prop := ch.inFlightPacket.isSome ↔ ch.timeout = true

instance (ch : ReliableChannel) : Decidable (Armed ch) :=
  inferInstanceAs (Decidable (_ ↔ _))

/-- The frame is the awaited acknowledgement or new data. -/
def ReliableChannel.Signals (ch : ReliableChannel) (frame : Packet) : Prop :=
  ∃ h, ReliablePacketHeader.ofData frame = some h ∧
    (h.flags &&& ReliablePacketHeader.ACK ≠ 0 ∧ ch.localSeq = h.seq ∨
      h.flags = 0 ∧ ch.peerSeq < h.seq)

/-- `writePacket` is called, by the user or by a listener. -/
def Event.Writes (ch : ReliableChannel) : Event → Prop
  | .writePacket _ => True
  | .readPacket frame calls => ch.Signals frame.1 ∧ calls ≠ []
  | .expire _ => False

variable {ch : ReliableChannel} {events : List Event}

theorem signal_timeout (ch : ReliableChannel) (calls : List Packet) :
    (ch.signal calls).1.timeout = ch.timeout := by
  rcases signal_eq ch calls with ⟨_, hr⟩ | ⟨_, _, hr⟩ | ⟨p, ps, _, _, hr⟩ <;> simp [hr]

/-- Listeners that write fill an empty slot. -/
theorem signal_slot (hs : ch.inFlightPacket = none) (calls : List Packet) :
    (ch.signal calls).1.inFlightPacket.isSome ↔ calls ≠ [] := by
  rcases signal_eq ch calls with ⟨h, _⟩ | ⟨_, hc, hr⟩ | ⟨p, ps, _, hc, hr⟩
  · simp [hs] at h
  · rw [hr]
    simp [hs, hc]
  · rw [hr]
    simp [hc]

/-- The only code that starts the timer runs when the timer expires. -/
theorem timer_off_step (e : Event) (h : ch.timeout = false) : (step ch e).timeout = false := by
  cases e with
  | writePacket packet =>
    cases hs : ch.inFlightPacket <;> simp [step, writePacket, hs, h]
  | readPacket frame calls =>
    obtain ⟨header, hh⟩ := ofData_frame frame
    rcases readPacket_cases ch (calls.map Packet.View.toPacket) hh with
      ⟨_, _, hr⟩ | ⟨_, _, hr⟩ | ⟨_, _, hr⟩ | ⟨_, _, hr⟩ <;> simp [step, hr, signal_timeout, h]
  | expire next => simp [step, h]

/-- So from construction on it is never started at all. -/
theorem timer_never_active (cid : UInt8) (events : List Event) :
    (Runs.run step (new cid) events).timeout = false :=
  Runs.invariant (I := fun ch : ReliableChannel => ch.timeout = false)
    (fun _ e h => timer_off_step e h) rfl

/-- What is written into an empty slot is in it afterwards, and nothing else gets there. -/
theorem slot_after_step (hs : ch.inFlightPacket = none) (ht : ch.timeout = false) (e : Event) :
    (step ch e).inFlightPacket.isSome ↔ e.Writes ch := by
  cases e with
  | writePacket packet => simp [step, writePacket, hs, Event.Writes]
  | readPacket frame calls =>
    obtain ⟨header, hh⟩ := ofData_frame frame
    have hsignals : ch.Signals frame.1 ↔
        (header.flags &&& ReliablePacketHeader.ACK ≠ 0 ∧ ch.localSeq = header.seq ∨
          header.flags = 0 ∧ ch.peerSeq < header.seq) := by simp [Signals, hh]
    rw [Event.Writes, hsignals]
    rcases readPacket_cases ch (calls.map Packet.View.toPacket) hh with
      ⟨hf, hl, hr⟩ | ⟨hf, hn, hr⟩ | ⟨hf, hn, hr⟩ | ⟨hf, hn, hr⟩
    · simp [step, hr, signal_slot, hf, hl]
    · simp [step, hr, signal_slot, hs, hf, hn]
    · simp [step, hr, hs, hf, hn]
    · refine iff_of_false (by simp [step, hr, hs]) ?_
      rintro ⟨h | h, -⟩
      · exact hn h
      · exact hf h.1
  | expire next => simp [step, ht, hs, Event.Writes]

theorem armed_iff_empty (ht : ch.timeout = false) : Armed ch ↔ ch.inFlightPacket = none := by
  simp [Armed, ht]

/-- With the timer off, the first write is the end of it. -/
theorem armed_from_iff (hs : ch.inFlightPacket = none) (ht : ch.timeout = false)
    (events : List Event) :
    (∀ k, Armed (Runs.run step ch (events.take k))) ↔
      Along step (fun ch e => ¬ e.Writes ch) ch events := by
  induction events generalizing ch with
  | nil => simp [Along, armed_iff_empty ht, hs]
  | cons e events ih =>
    have hslot := slot_after_step hs ht e
    have ht' := timer_off_step e ht
    constructor
    · intro h
      have hempty := (armed_iff_empty ht').mp (h 1)
      exact ⟨fun hw => by simpa [hempty] using hslot.mpr hw,
        (ih hempty ht').mp fun k => h (k + 1)⟩
    · rintro ⟨hw, hrest⟩ k
      have hempty : (step ch e).inFlightPacket = none := by simpa using mt hslot.mp hw
      cases k with
      | zero => exact (armed_iff_empty ht).mpr hs
      | succ k => exact (ih hempty ht').mpr hrest k

/-- Slot and timer agree throughout a run exactly when nothing is ever written, by anyone:
the first accepted packet sits in the slot while no code path starts its timer. -/
theorem armed_throughout_iff_no_write (cid : UInt8) (events : List Event) :
    (∀ k, Armed (Runs.run step (new cid) (events.take k))) ↔
      Along step (fun ch e => ¬ e.Writes ch) (new cid) events :=
  armed_from_iff rfl rfl events

/-- A single accepted packet is already stranded. -/
theorem first_write_not_armed :
    ¬ ∀ k, Armed (Runs.run step (new 1)
      ([.writePacket ⟨Packet.ofBytes [7], by decide, by decide⟩].take k)) := by
  intro h
  exact absurd (h 1) (by decide)

end Wetnork.Reliable
