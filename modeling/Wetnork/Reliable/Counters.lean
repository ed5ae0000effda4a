import Wetnork.Reliable.Delivery

/-! The two sequence counters of one direction, up to the wrap and beyond it. -/
namespace Wetnork.Reliable

open ReliableChannel

variable {S R : Endpoint}

/-- A data frame with this sequence number is in the network. -/
def Endpoint.DataSeq (e : Endpoint) (seq : UInt32) : Prop :=
  ∃ x ∈ e.sent, ∃ h, ReliablePacketHeader.ofData x.frame = some h ∧ h.flags = 0 ∧ h.seq = seq

/-- An acknowledgement with this sequence number is in the network. -/
def Endpoint.AckSeq (e : Endpoint) (seq : UInt32) : Prop :=
  ∃ x ∈ e.sent, ∃ h, ReliablePacketHeader.ofData x.frame = some h ∧
    h.flags &&& ReliablePacketHeader.ACK ≠ 0 ∧ h.seq = seq

/-- The counters of a sender `S` and its receiver `R`, the frames between them, and the packets
and signals they account for. -/
structure InStep (S R : Endpoint) : Prop where
  behind : R.channel.peerSeq.toNat ≤ S.channel.localSeq.toNat
  lead : S.channel.localSeq.toNat ≤ R.channel.peerSeq.toNat + 1
  data : ∀ seq, S.DataSeq seq → seq ≤ S.channel.localSeq
  acks : ∀ seq, R.AckSeq seq → seq ≤ R.channel.peerSeq
  unused : S.channel.inFlightPacket = none →
    ¬ S.DataSeq S.channel.localSeq ∧ ¬ R.AckSeq S.channel.localSeq
  inFlight : ∀ x ∈ R.sent, ∀ calls ch outputs,
    S.channel.readPacket calls x.frame = some (ch, outputs) →
    ch.localSeq ≠ S.channel.localSeq → S.channel.inFlightPacket.isSome
  canSends : S.canSends = S.channel.localSeq.toNat
  empty : S.channel.inFlightPacket = none → S.canSends = S.accepted.length
  full : S.channel.inFlightPacket.isSome → S.canSends + 1 = S.accepted.length

theorem signal_localSeq (ch : ReliableChannel) (calls : List Packet) :
    (ch.signal calls).1.localSeq = ch.localSeq := by
  rcases signal_eq ch calls with ⟨_, hr⟩ | ⟨_, _, hr⟩ | ⟨p, ps, _, _, hr⟩ <;> simp [hr]

/-- `localSeq` advances only for an acknowledgement that carries it. -/
theorem acked_of_localSeq_ne {ch ch' : ReliableChannel} {calls : List Packet} {frame : Packet}
    {outputs : List Output} (hr : ch.readPacket calls frame = some (ch', outputs))
    (hn : ch'.localSeq ≠ ch.localSeq) :
    ∃ h, ReliablePacketHeader.ofData frame = some h ∧
      h.flags &&& ReliablePacketHeader.ACK ≠ 0 ∧ h.seq = ch.localSeq := by
  cases hd : ReliablePacketHeader.ofData frame with
  | none => simp [readPacket, hd] at hr
  | some h =>
    rcases readPacket_cases ch calls hd with
      ⟨hf, hl, _⟩ | ⟨_, _, he⟩ | ⟨_, _, he⟩ | ⟨_, _, he⟩
    · exact ⟨h, rfl, hf, hl.symm⟩
    · rw [he] at hr
      cases hr
      exact absurd (signal_localSeq _ calls) hn
    · rw [he] at hr
      cases hr
      exact absurd rfl hn
    · rw [he] at hr
      cases hr
      exact absurd rfl hn

/-- Fewer than `2^32` accepted packets leave the direction in its first phase. -/
theorem counting_of_few (hl : Lockstep S R) (hf : S.accepted.length < 2 ^ 32) : Counting S R := by
  rcases hl.phase with hc | hw
  · exact hc
  · have := hw.accepted
    omega

theorem Counting.dataSeq_lt (hc : Counting S R) {seq : UInt32} (h : S.DataSeq seq) :
    seq.toNat < S.accepted.length := by
  obtain ⟨x, hx, g, hg, hf, rfl⟩ := h
  exact hc.seq_lt hx hg hf

theorem Counting.ackSeq_lt (hc : Counting S R) {seq : UInt32} (h : R.AckSeq seq) :
    seq.toNat < S.accepted.length ∧ seq.toNat ≤ R.channel.peerSeq.toNat := by
  obtain ⟨x, hx, g, hg, hf, rfl⟩ := h
  exact hc.acks x hx g hg (flags_ne_zero hf)

theorem Counting.unused (hc : Counting S R) (hs : S.channel.inFlightPacket = none) :
    ¬ S.DataSeq S.channel.localSeq ∧ ¬ R.AckSeq S.channel.localSeq := by
  have he := hc.empty hs
  have hl := hc.localSeq
  constructor
  · intro h
    have := hc.dataSeq_lt h
    omega
  · intro h
    have := (hc.ackSeq_lt h).1
    omega

theorem inStep_of_counting (hl : Lockstep S R) (hc : Counting S R) : InStep S R := by
  have hlen := hc.accepted_le
  have hloc := hc.localSeq
  refine ⟨?_, by have := hc.lead; omega, ?_, ?_, hc.unused, ?_, hloc.symm,
    fun hs => (hc.empty hs).symm, ?_⟩
  · rcases hl.seen with h | h <;> omega
  · intro seq h
    have := hc.dataSeq_lt h
    apply UInt32.le_iff_toNat_le.mpr
    omega
  · intro seq h
    exact UInt32.le_iff_toNat_le.mpr (hc.ackSeq_lt h).2
  · intro x hx calls ch outputs hr hn
    obtain ⟨h, hh, hf, hseq⟩ := acked_of_localSeq_ne hr hn
    by_contra hs
    have hs' : S.channel.inFlightPacket = none := by simpa using hs
    exact (hc.unused hs').2 ⟨x, hx, h, hh, hf, hseq⟩
  · intro hs
    obtain ⟨p, hp⟩ := Option.isSome_iff_exists.mp hs
    exact (hc.full p hp).1.symm

/-- Sender and receiver never drift apart by more than the one packet in flight, whatever the
network does with stale and duplicated frames, as long as the counter has not wrapped. -/
theorem counters_in_lockstep (cid : UInt8) (actions : List Action) (i : Side) :
    let s := Runs.run System.step (System.new cid) actions
    (s i).accepted.length < 2 ^ 32 → InStep (s i) (s i.other) := by
  intro s hf
  have hl : Lockstep (s i) (s i.other) := lockstep_run cid actions i
  exact inStep_of_counting hl (counting_of_few hl hf)

/-- The second packet is in flight, and the receiver has it already. -/
theorem counters_in_lockstep_second :
    let s := Runs.run System.step (System.new 1) (exchange 7 0 ++ (exchange 8 1).take 3)
    (s .a).accepted.length = 2 ∧ (s .a).channel.localSeq = 1 ∧ (s .b).channel.peerSeq = 1 ∧
      InStep (s .a) (s .b) :=
  ⟨by decide, by decide, by decide,
    counters_in_lockstep 1 (exchange 7 0 ++ (exchange 8 1).take 3) .a (by decide)⟩

theorem signal_no_payload (ch : ReliableChannel) (calls : List Packet) :
    (ch.signal calls).2.filterMap Output.payload? = [] := by
  rcases signal_eq ch calls with ⟨_, hr⟩ | ⟨_, _, hr⟩ | ⟨p, ps, _, _, hr⟩ <;>
    simp [hr, Output.payload?]

/-- A data frame is emitted, once, exactly if its number exceeds the receiver's. -/
theorem readPacket_dataFrame (S R : ReliableChannel) (calls : List Packet) (v : Packet.View) :
    ∃ ch outputs, R.readPacket calls (S.dataFrame v.contents) = some (ch, outputs) ∧
      outputs.filterMap Output.payload? = if R.peerSeq < S.localSeq then [v.contents] else [] := by
  rcases readPacket_cases R calls (ofData_dataFrame S v.contents) with
    ⟨hf, _, _⟩ | ⟨_, hn, hr⟩ | ⟨_, hn, hr⟩ | ⟨hf, _, _⟩
  · simp at hf
  · refine ⟨_, _, hr, ?_⟩
    simp [Output.payload?, signal_no_payload, hn, dataFrame_payload]
  · refine ⟨_, _, hr, ?_⟩
    simp [Output.payload?, hn]
  · exact absurd rfl hf

theorem slotView_run (cid : UInt8) (actions : List Action) (i : Side) :
    (Runs.run System.step (System.new cid) actions i).SlotView := by
  apply run_invariant (I := fun e _ => e.SlotView)
  · intro p hp
    cases hp
  · intro e t peer hm hv _ _
    exact slotView_move hm hv
  · intro e t peer _ _ hp _
    exact hp

/-- Once the receiver has delivered something, the packet in flight is new to it exactly as long
as the counter has not wrapped. -/
theorem new_iff_unwrapped (hl : Lockstep S R) {p : Packet}
    (hs : S.channel.inFlightPacket = some p) (hd : R.delivered ≠ [])
    (hn : S.accepted.length - 1 ∉ R.delivered) :
    R.channel.peerSeq < S.channel.localSeq ↔ S.accepted.length ≤ 2 ^ 32 := by
  rw [hl.delivered] at hd hn
  have hpos : R.channel.peerSeq.toNat ≠ 0 := by
    intro hz
    simp [hz] at hd
  rw [List.mem_range'_1] at hn
  rw [UInt32.lt_iff_toNat_lt]
  rcases hl.phase with hc | hw
  · have hfull := (hc.full p hs).1
    have hloc := hc.localSeq
    have hsmall := hc.small
    rcases hl.seen with hz | hlt <;> omega
  · have hpeer := hw.peerSeq
    have hmax := S.channel.localSeq.toNat_lt
    have hfull := hw.full (by simp [hs])
    omega

/-- The frame of a packet in flight that the receiver still lacks is emitted by it exactly when
the packet is among the first `2^32` the sender has accepted: afterwards the sender counts from
zero again, and every number compares below the receiver's. -/
theorem in_flight_received_iff (cid : UInt8) (actions : List Action) (i : Side)
    (next : WriteResult) (calls : List Packet) {p : Packet} :
    let s := Runs.run System.step (System.new cid) actions
    (s i).channel.inFlightPacket = some p → (s i.other).delivered ≠ [] →
    (s i).accepted.length - 1 ∉ (s i.other).delivered →
    (s i).accepted[(s i).accepted.length - 1]? = some p ∧
    ∃ ch frame ch' outputs,
      (s i).channel.transmitQueue next = some (ch, [.write frame]) ∧
      (s i.other).channel.readPacket calls frame = some (ch', outputs) ∧
      (outputs.filterMap Output.payload? = [p.contents] ↔ (s i).accepted.length ≤ 2 ^ 32) := by
  intro s hs hd hn
  have hl : Lockstep (s i) (s i.other) := lockstep_run cid actions i
  have hlast := hl.slot p hs
  rw [List.getLast?_eq_getElem?] at hlast
  obtain ⟨v, rfl⟩ := slotView_run cid actions i p hs
  obtain ⟨ch', outputs, hr, ho⟩ :=
    readPacket_dataFrame (s i).channel (s i.other).channel calls v
  refine ⟨hlast, _, _, ch', outputs, transmitQueue_eq hs next, hr, ?_⟩
  rw [ho, ← new_iff_unwrapped hl hs hd hn]
  by_cases h : (s i.other).channel.peerSeq < (s i).channel.localSeq <;> simp [h]

/-- The third packet is received like the second. -/
theorem in_flight_received_third :
    let s := Runs.run System.step (System.new 1)
      (exchange 7 0 ++ exchange 8 1 ++ (exchange 9 2).take 1)
    (s .a).accepted[2]? = some (.ofBytes [9]) ∧ (s .b).delivered = [1] ∧
    ∃ ch frame ch' outputs,
      (s .a).channel.transmitQueue (.returned true) = some (ch, [.write frame]) ∧
      (s .b).channel.readPacket [] frame = some (ch', outputs) ∧
      (outputs.filterMap Output.payload? = [[9]] ↔ (s .a).accepted.length ≤ 2 ^ 32) := by
  have h := in_flight_received_iff 1 (exchange 7 0 ++ exchange 8 1 ++ (exchange 9 2).take 1) .a
    (.returned true) [] (p := .ofBytes [9]) (by decide) (by decide) (by decide)
  exact ⟨h.1, by decide, h.2⟩

/-- So many packets, each acknowledged before the next one is accepted. -/
def exchanges : ℕ → List Action
  | 0 => []
  | n + 1 => exchanges n ++ exchange 7 n

/-- Where `n` complete exchanges leave the two ends. -/
structure Exchanged (n : ℕ) (s : System) : Prop where
  slot : (s .a).channel.inFlightPacket = none
  localSeq : (s .a).channel.localSeq = UInt32.ofNat n
  peerSeq : (s .b).channel.peerSeq = UInt32.ofNat (n - 1)
  accepted : (s .a).accepted.length = n
  sent : (s .a).sent.length = n
  acked : (s .b).sent.length = n

variable {s : System} {n : ℕ} {x : Sent} {h : ReliablePacketHeader}

theorem step_write (hs : (s .a).channel.inFlightPacket = none) (v : Packet.View) :
    System.step s (.writePacket .a v) = Function.update s .a { s .a with
      channel := { (s .a).channel with inFlightPacket := some v.toPacket }
      accepted := (s .a).accepted ++ [v.toPacket] } := by
  simp [System.step, Action.result, writePacket, hs, Endpoint.after, Endpoint.observe]

theorem step_transmit {v : Packet.View} (hs : (s .a).channel.inFlightPacket = some v.toPacket)
    (next : WriteResult) :
    ∃ timeout, System.step s (.transmitQueue .a next) = Function.update s .a { s .a with
      channel := { (s .a).channel with timeout := timeout }
      sent := (s .a).sent ++
        [⟨(s .a).channel.dataFrame v.contents, (s .a).accepted.length - 1⟩] } := by
  refine ⟨(s .a).channel.timeout || next != .threw, ?_⟩
  simp [System.step, Action.result, transmitQueue_eq hs, Endpoint.after, Endpoint.observe]

theorem step_data (hx : (s .a).sent[n]? = some x)
    (hh : ReliablePacketHeader.ofData x.frame = some h) (hf : h.flags = 0) :
    let t := System.step s (.readPacket .b n [])
    t .a = s .a ∧ (t .b).channel.peerSeq.toNat = max (s .b).channel.peerSeq.toNat h.seq.toNat ∧
      ∃ position, (t .b).sent = (s .b).sent ++ [⟨(s .b).channel.ackFrame h.seq, position⟩] := by
  rcases readPacket_cases (s .b).channel [] hh with
    ⟨hf', _, _⟩ | ⟨_, hn, hr⟩ | ⟨_, hn, hr⟩ | ⟨hf', _, _⟩
  · simp [hf] at hf'
  · rw [UInt32.lt_iff_toNat_lt] at hn
    refine ⟨?_, ?_, (s .b).accepted.length - 1, ?_⟩ <;>
      simp [System.step, Action.result, Side.other, hx, hr, Endpoint.after, Endpoint.observe,
        signal]
    omega
  · rw [UInt32.lt_iff_toNat_lt] at hn
    refine ⟨?_, ?_, (s .b).accepted.length - 1, ?_⟩ <;>
      simp [System.step, Action.result, Side.other, hx, hr, Endpoint.after, Endpoint.observe]
    omega
  · exact absurd hf hf'

theorem step_ack (hx : (s .b).sent[n]? = some x)
    (hh : ReliablePacketHeader.ofData x.frame = some h)
    (hf : h.flags &&& ReliablePacketHeader.ACK ≠ 0) (hl : (s .a).channel.localSeq = h.seq) :
    System.step s (.readPacket .a n []) = Function.update s .a { s .a with
      channel := { (s .a).channel with
        localSeq := (s .a).channel.localSeq + 1, inFlightPacket := none, timeout := false }
      canSends := (s .a).canSends + 1 } := by
  rcases readPacket_cases (s .a).channel [] hh with
    ⟨_, _, hr⟩ | ⟨hz, _, _⟩ | ⟨hz, _, _⟩ | ⟨_, hn, _⟩
  · simp [System.step, Action.result, Side.other, hx, hr, Endpoint.after, Endpoint.observe, signal]
  · exact absurd hz (flags_ne_zero hf)
  · exact absurd hz (flags_ne_zero hf)
  · exact absurd ⟨hf, hl⟩ hn


/-- A packet is accepted and transmitted. -/
theorem step_send (hs : (s .a).channel.inFlightPacket = none) (v : Packet.View) :
    let t := Runs.run System.step s [.writePacket .a v, .transmitQueue .a (.returned true)]
    t .b = s .b ∧ (t .a).channel.localSeq = (s .a).channel.localSeq ∧
      (t .a).accepted = (s .a).accepted ++ [v.toPacket] ∧
      ∃ x, (t .a).sent = (s .a).sent ++ [x] ∧ ReliablePacketHeader.ofData x.frame =
        some ⟨(s .a).channel.cid, 0, (s .a).channel.localSeq⟩ := by
  intro t
  obtain ⟨timeout, ht⟩ := step_transmit (s := System.step s (.writePacket .a v)) (v := v)
    (by simp [step_write hs]) (.returned true)
  have he : t = _ := ht
  rw [step_write hs] at he
  refine ⟨by simp [he], by simp [he], by simp [he], ⟨_, _⟩, by simp [he]; exact ⟨rfl, rfl⟩, ?_⟩
  simp [ofData_dataFrame]

theorem exchanged_succ (h : Exchanged n s) (hn : n < 2 ^ 32) :
    Exchanged (n + 1) (Runs.run System.step s (exchange 7 n)) := by
  let v : Packet.View := ⟨.ofBytes [7], by simp [Packet.inBounds_ofBytes], by simp⟩
  obtain ⟨hb, hl, ha, x, hs, hg⟩ := step_send h.slot v
  change Exchanged (n + 1) (System.step (System.step (Runs.run System.step s
    [.writePacket .a v, .transmitQueue .a (.returned true)]) (.readPacket .b n []))
      (.readPacket .a n []))
  generalize Runs.run System.step s [.writePacket .a v, .transmitQueue .a (.returned true)] = t
    at hb hl ha hs ⊢
  have hx : (t .a).sent[n]? = some x := by
    simp [hs, ← h.sent]
  obtain ⟨hta, hpeer, position, hack⟩ := step_data hx hg rfl
  generalize System.step t (.readPacket .b n []) = u at hta hpeer hack ⊢
  have hy : (u .b).sent[n]? = some ⟨(t .b).channel.ackFrame (s .a).channel.localSeq, position⟩ := by
    simp [hack, hb, ← h.acked]
  have hlocal : (u .a).channel.localSeq = (s .a).channel.localSeq := by
    rw [hta, hl]
  rw [step_ack hy (ofData_ackFrame _ _) (by simp [ReliablePacketHeader.ACK]) hlocal]
  constructor
  · simp
  · simp [hta, hl, h.localSeq]
  · apply UInt32.toNat_inj.mp
    simp only [hb, h.peerSeq, h.localSeq, UInt32.toNat_ofNat'] at hpeer
    simp [hpeer]
    omega
  · simp [hta, ha, h.accepted]
  · simp [hta, hs, h.sent]
  · simp [hack, hb, h.acked]

theorem exchanged_run (hn : n ≤ 2 ^ 32) :
    Exchanged n (Runs.run System.step (System.new 1) (exchanges n)) := by
  induction n with
  | zero => exact ⟨rfl, rfl, rfl, rfl, rfl, rfl⟩
  | succ n ih =>
    rw [exchanges, Runs.run_append]
    exact exchanged_succ (ih (by omega)) (by omega)

/-- After `2^32` exchanges the packet in flight has the number zero, the receiver the largest. -/
theorem lost_of_wrapped (hn : n = 2 ^ 32) (v : Packet.View) :
    let s := Runs.run System.step (System.new 1) (exchanges n ++ [.writePacket .a v])
    (s .a).channel.inFlightPacket = some v.toPacket ∧ (s .b).delivered ≠ [] ∧
    (s .a).accepted.length - 1 ∉ (s .b).delivered ∧
    ∃ ch frame ch' outputs,
      (s .a).channel.transmitQueue (.returned true) = some (ch, [.write frame]) ∧
      (s .b).channel.readPacket [] frame = some (ch', outputs) ∧
      outputs.filterMap Output.payload? ≠ [v.contents] := by
  intro s
  have he : Exchanged n (Runs.run System.step (System.new 1) (exchanges n)) :=
    exchanged_run (by omega)
  have hl : Lockstep (Runs.run System.step (System.new 1) (exchanges n) .a)
      (Runs.run System.step (System.new 1) (exchanges n) .b) := lockstep_run 1 (exchanges n) .a
  have hs : s = _ := (Runs.run_append _).trans (step_write he.slot v)
  have hslot : (s .a).channel.inFlightPacket = some v.toPacket := by simp [hs]
  have hpeer : (s .b).channel.peerSeq.toNat = 2 ^ 32 - 1 := by
    simp [hs, he.peerSeq]
    omega
  have hdel : (s .b).delivered = List.range' 1 (2 ^ 32 - 1) := by
    rw [← hpeer]
    simpa [hs] using hl.delivered
  have hlen : (s .a).accepted.length - 1 = 2 ^ 32 := by
    simp [hs, he.accepted]
    omega
  obtain ⟨ch', outputs, hr, ho⟩ := readPacket_dataFrame (s .a).channel (s .b).channel [] v
  refine ⟨hslot, ?_, ?_, _, _, ch', outputs, transmitQueue_eq hslot _, hr, ?_⟩
  · intro hnil
    have := congrArg List.length (hdel.symm.trans hnil)
    simp at this
  · rw [hlen, hdel, List.mem_range'_1]
    omega
  · have := (s .a).channel.localSeq.toNat_lt
    have hold : ¬ (s .b).channel.peerSeq < (s .a).channel.localSeq := by
      rw [UInt32.lt_iff_toNat_lt]
      omega
    simp [ho, hold]

/-- The packet after `2^32` acknowledged ones is taken for an old one. -/
theorem wrapped_packet_lost :
    let v : Packet.View := ⟨.ofBytes [9], by decide, by decide⟩
    let s := Runs.run System.step (System.new 1) (exchanges (2 ^ 32) ++ [.writePacket .a v])
    (s .a).channel.inFlightPacket = some v.toPacket ∧ (s .b).delivered ≠ [] ∧
    (s .a).accepted.length - 1 ∉ (s .b).delivered ∧
    ∃ ch frame ch' outputs,
      (s .a).channel.transmitQueue (.returned true) = some (ch, [.write frame]) ∧
      (s .b).channel.readPacket [] frame = some (ch', outputs) ∧
      outputs.filterMap Output.payload? ≠ [v.contents] := by
  intro v
  exact lost_of_wrapped (n := 2 ^ 32) rfl v

end Wetnork.Reliable
