import Wetnork.Reliable.Channel

/-! What a channel does with an arbitrary list of frames, forged ones included. -/
namespace Wetnork.Reliable

variable {ch : ReliableChannel} {f g : Frame} {frames before : List Frame} {peerSeq : UInt32}

/-- The bytes after the header. -/
def Frame.payload (f : Frame) : Bytes := f.1.contents.drop ReliablePacketHeader.size

/-- The sequence numbers of the data frames. -/
def dataSeqs (frames : List Frame) : List UInt32 :=
  (frames.filter fun f => f.header.flags = 0).map fun f => f.header.seq

/-- A data frame with a larger number than the counter and than all data frames before it. -/
def Fresh (peerSeq : UInt32) (before : List Frame) (f : Frame) : Prop :=
  f.header.flags = 0 ∧ peerSeq < f.header.seq ∧ ∀ seq ∈ dataSeqs before, seq < f.header.seq

instance : Decidable (Fresh peerSeq before f) := inferInstanceAs (Decidable (_ ∧ _ ∧ _))

/-- The payloads of the fresh frames, in the order of the list. -/
def freshPayloads (peerSeq : UInt32) (frames : List Frame) : List Bytes :=
  (List.range frames.length).filterMap fun k =>
    frames[k]?.bind fun f => if Fresh peerSeq (frames.take k) f then some f.payload else none

theorem dataSeqs_data (hf : f.header.flags = 0) :
    dataSeqs (f :: frames) = f.header.seq :: dataSeqs frames := by
  simp [dataSeqs, hf]

theorem dataSeqs_other (hf : f.header.flags ≠ 0) : dataSeqs (f :: frames) = dataSeqs frames := by
  simp [dataSeqs, hf]

/-- A data frame in front raises the counter that the later ones are compared with. -/
theorem fresh_data (hf : f.header.flags = 0) :
    Fresh peerSeq (f :: before) g ↔
      Fresh (if peerSeq < f.header.seq then f.header.seq else peerSeq) before g := by
  simp only [Fresh, dataSeqs_data hf, List.forall_mem_cons, UInt32.lt_iff_toNat_lt]
  by_cases h : peerSeq.toNat < f.header.seq.toNat
  · rw [if_pos h]
    constructor
    · rintro ⟨hg, _, hlt, hall⟩
      exact ⟨hg, hlt, hall⟩
    · rintro ⟨hg, hlt, hall⟩
      exact ⟨hg, by omega, hlt, hall⟩
  · rw [if_neg h]
    constructor
    · rintro ⟨hg, hlt, _, hall⟩
      exact ⟨hg, hlt, hall⟩
    · rintro ⟨hg, hlt, hall⟩
      exact ⟨hg, hlt, by omega, hall⟩

theorem fresh_other (hf : f.header.flags ≠ 0) :
    Fresh peerSeq (f :: before) g ↔ Fresh peerSeq before g := by
  simp only [Fresh, dataSeqs_other hf]

/-- If the first frame moves the counter to `next`, the others are judged by that. -/
theorem freshPayloads_cons (frames : List Frame) {next : UInt32}
    (h : ∀ before g, Fresh peerSeq (f :: before) g ↔ Fresh next before g) :
    freshPayloads peerSeq (f :: frames) =
      (if Fresh peerSeq [] f then [f.payload] else []) ++ freshPayloads next frames := by
  simp only [freshPayloads, List.length_cons, List.range_succ_eq_map, List.filterMap_cons,
    List.filterMap_map, Function.comp_def, List.getElem?_cons_zero, List.getElem?_cons_succ,
    List.take_succ_cons, List.take_zero, Option.bind_some, h]
  by_cases hf : Fresh peerSeq [] f <;> simp [hf]

namespace ReliableChannel

/-- The frames in order; listeners do not call back. -/
def readAll : ReliableChannel → List Frame → Option (ReliableChannel × List Output)
  | ch, [] => some (ch, [])
  | ch, f :: frames => do
    let (ch, outputs) ← ch.readPacket [] f.1
    let (ch, more) ← ch.readAll frames
    return (ch, outputs ++ more)

theorem readAll_cons {t u : ReliableChannel} {outputs more : List Output}
    (h : ch.readPacket [] f.1 = some (t, outputs)) (hs : t.readAll frames = some (u, more)) :
    ch.readAll (f :: frames) = some (u, outputs ++ more) := by
  simp [readAll, h, hs]

/-- A data frame touches the receiving side only, and is acknowledged in any case. -/
theorem readPacket_data (ch : ReliableChannel) (hf : f.header.flags = 0) :
    ∃ t outputs, ch.readPacket [] f.1 = some (t, outputs) ∧
      t = { ch with
        peerSeq := if ch.peerSeq < f.header.seq then f.header.seq else ch.peerSeq } ∧
      outputs.filterMap Output.payload? = (if Fresh ch.peerSeq [] f then [f.payload] else []) ∧
      outputs.filterMap Output.frame? = [ch.ackFrame f.header.seq] := by
  have hskip := Packet.skip_contents f.2.1 (n := ReliablePacketHeader.size)
  rcases readPacket_cases ch [] (ofData_header f) with
    ⟨ha, _, _⟩ | ⟨_, hn, hr⟩ | ⟨_, hn, hr⟩ | ⟨hz, _, _⟩
  · simp [hf] at ha
  · refine ⟨_, _, hr, by simp [signal, hn], ?_, ?_⟩
    · simp [signal, Output.payload?, Fresh, dataSeqs, hf, hn, Frame.payload, hskip]
    · simp [signal, Output.frame?, List.filterMap_cons]
  · refine ⟨_, _, hr, by simp [hn], ?_, ?_⟩
    · simp [Output.payload?, Fresh, hn]
    · simp [Output.frame?]
  · exact absurd hf hz

/-- Any other frame touches the sending side only, and nothing but `canSend` comes of it. -/
theorem readPacket_other (ch : ReliableChannel) (hf : f.header.flags ≠ 0) :
    ∃ t outputs, ch.readPacket [] f.1 = some (t, outputs) ∧ t.peerSeq = ch.peerSeq ∧
      t.cid = ch.cid ∧ outputs.filterMap Output.payload? = [] ∧
      outputs.filterMap Output.frame? = [] := by
  rcases readPacket_cases ch [] (ofData_header f) with
    ⟨_, _, hr⟩ | ⟨hz, _, _⟩ | ⟨hz, _, _⟩ | ⟨_, _, hr⟩
  · exact ⟨_, _, hr, by simp [signal, Output.payload?, Output.frame?]⟩
  · exact absurd hz hf
  · exact absurd hz hf
  · exact ⟨_, _, hr, by simp⟩

/-- The loop against the running maxima of the list. -/
theorem readAll_spec (ch : ReliableChannel) (frames : List Frame) :
    ∃ t outputs, ch.readAll frames = some (t, outputs) ∧
      outputs.filterMap Output.payload? = freshPayloads ch.peerSeq frames ∧
      outputs.filterMap Output.frame? = (dataSeqs frames).map ch.ackFrame ∧
      t.peerSeq.toNat = ((dataSeqs frames).map UInt32.toNat).foldl max ch.peerSeq.toNat := by
  induction frames generalizing ch with
  | nil => exact ⟨ch, [], rfl, rfl, rfl, rfl⟩
  | cons f frames ih =>
    by_cases hf : f.header.flags = 0
    · obtain ⟨u, first, hone, hu, hpay, hack⟩ := readPacket_data ch hf
      obtain ⟨t, outputs, hr, hp, hw, hm⟩ := ih u
      refine ⟨t, _, readAll_cons hone hr, ?_, ?_, ?_⟩
      · have hfresh : freshPayloads ch.peerSeq (f :: frames) = _ :=
          freshPayloads_cons frames fun before g => fresh_data hf
        rw [hfresh, List.filterMap_append, hpay, hp, hu]
      · have hcid : u.ackFrame = ch.ackFrame := by
          rw [hu]
          rfl
        rw [dataSeqs_data hf, List.filterMap_append, hack, hw, hcid]
        rfl
      · have hmax : u.peerSeq.toNat = max ch.peerSeq.toNat f.header.seq.toNat := by
          rw [hu]
          dsimp only
          split <;> simp_all only [UInt32.lt_iff_toNat_lt] <;> omega
        rw [dataSeqs_data hf, List.map_cons, List.foldl_cons, ← hmax, hm]
    · obtain ⟨u, first, hone, hpeer, hcid, hno, hnone⟩ := readPacket_other ch hf
      obtain ⟨t, outputs, hr, hp, hw, hm⟩ := ih u
      refine ⟨t, _, readAll_cons hone hr, ?_, ?_, ?_⟩
      · have hfresh : freshPayloads ch.peerSeq (f :: frames) = _ :=
          freshPayloads_cons frames fun before g => fresh_other hf
        rw [hfresh, List.filterMap_append, hno, hp, hpeer]
        simp [Fresh, hf]
      · rw [dataSeqs_other hf, List.filterMap_append, hnone, hw]
        simp [ackFrame, hcid]
      · rw [dataSeqs_other hf, hm, hpeer]

end ReliableChannel

/-- For any state and any frames: what is emitted are the strict running maxima above `peerSeq`,
every data frame is acknowledged under the channel's own id and nothing else is written, and
`peerSeq` ends at the largest number. Data frames and other frames keep to their own side. -/
theorem receiver_semantics (ch : ReliableChannel) (frames : List Frame) :
    (∃ t outputs, ch.readAll frames = some (t, outputs) ∧
      outputs.filterMap Output.payload? = freshPayloads ch.peerSeq frames ∧
      outputs.filterMap Output.frame? = (dataSeqs frames).map ch.ackFrame ∧
      t.peerSeq.toNat = ((dataSeqs frames).map UInt32.toNat).foldl max ch.peerSeq.toNat) ∧
    ∀ f : Frame, ∃ t outputs, ch.readPacket [] f.1 = some (t, outputs) ∧
      (f.header.flags = 0 → t.localSeq = ch.localSeq ∧
        t.inFlightPacket = ch.inFlightPacket ∧ t.timeout = ch.timeout) ∧
      (f.header.flags ≠ 0 → t.peerSeq = ch.peerSeq) := by
  refine ⟨ch.readAll_spec frames, ?_⟩
  intro f
  by_cases hf : f.header.flags = 0
  · obtain ⟨t, outputs, hr, ht, _⟩ := ch.readPacket_data hf
    exact ⟨t, outputs, hr, fun _ => by simp [ht], fun hn => absurd hf hn⟩
  · obtain ⟨t, outputs, hr, hp, _⟩ := ch.readPacket_other hf
    exact ⟨t, outputs, hr, fun hz => absurd hz hf, fun _ => hp⟩

end Wetnork.Reliable
