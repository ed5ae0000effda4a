import Wetnork.Reliable.Trace

/-! What fairness of the network and of the retransmission makes of a direction: nothing stays in
the slot for ever. -/
namespace Wetnork.Reliable

open ReliableChannel

/-- An infinite execution; at a moment without an action the system rests. -/
structure Execution where
  state : ℕ → System
  event : ℕ → Option Action

structure Valid (cid : UInt8) (E : Execution) : Prop where
  initial : E.state 0 = System.new cid
  rest : ∀ n, E.event n = none → E.state (n + 1) = E.state n
  step : ∀ n a, E.event n = some a → E.state (n + 1) = System.step (E.state n) a

/-- Side `i` hands this frame to `next.write` at this moment. -/
def Writes (E : Execution) (i : Side) (frame : Packet) (n : ℕ) : Prop :=
  ∃ a, E.event n = some a ∧ a.side = i ∧ .write frame ∈ a.outputs (E.state n)

/-- A copy of this frame is handed to `readPacket` of side `i` at this moment. -/
def Reads (E : Execution) (i : Side) (frame : Packet) (n : ℕ) : Prop :=
  ∃ k calls x, E.event n = some (.readPacket i k calls) ∧
    (E.state n i.other).sent[k]? = some x ∧ x.frame = frame

/-- The network may lose any copy of a frame, but not all copies of one that is written again and
again; and as long as its slot is full, an end runs `transmitQueue` again. -/
structure Fair (E : Execution) : Prop where
  delivers : ∀ i frame, (∀ m, ∃ n, m ≤ n ∧ Writes E i frame n) →
    ∀ m, ∃ n, m ≤ n ∧ Reads E i.other frame n
  retransmits : ∀ i m, (∀ n, m ≤ n → (E.state n i).channel.inFlightPacket.isSome) →
    ∃ n next, m ≤ n ∧ E.event n = some (.transmitQueue i next)

variable {cid : UInt8} {E : Execution} {i : Side} {m n : ℕ} {e peer t : Endpoint} {p : Packet}
  {seq : UInt32}

/-- A full slot is left alone by everything but the acknowledgement of its packet. -/
theorem move_stays (h : Move peer e t) (hs : e.channel.inFlightPacket = some p) :
    (t.channel.inFlightPacket = some p ∧ t.channel.localSeq = e.channel.localSeq ∧
      t.canSends = e.canSends) ∨ e.canSends < t.canSends := by
  cases h with
  | accept q hn => simp [hs] at hn
  | transmit q timeout hq => exact Or.inl ⟨hs, rfl, rfl⟩
  | acked x h hx hh hf hl => exact Or.inr (Nat.lt_succ_self _)
  | receive x h hx hh hf hn => exact Or.inl ⟨hs, rfl, rfl⟩
  | acknowledge x h hx hh hf hn => exact Or.inl ⟨hs, rfl, rfl⟩

/-- Histories only grow, and the id stays. -/
theorem move_grows (h : Move peer e t) :
    e.canSends ≤ t.canSends ∧ e.accepted.IsPrefix t.accepted ∧ t.channel.cid = e.channel.cid := by
  cases h with
  | accept q hn => exact ⟨le_rfl, List.prefix_append _ _, rfl⟩
  | transmit q timeout hq => exact ⟨le_rfl, List.prefix_rfl, rfl⟩
  | acked x h hx hh hf hl => exact ⟨Nat.le_succ _, List.prefix_rfl, rfl⟩
  | receive x h hx hh hf hn => exact ⟨le_rfl, List.prefix_rfl, rfl⟩
  | acknowledge x h hx hh hf hn => exact ⟨le_rfl, List.prefix_rfl, rfl⟩

theorem moves_grow (h : Moves peer e t) :
    e.canSends ≤ t.canSends ∧ e.accepted.IsPrefix t.accepted ∧ t.channel.cid = e.channel.cid := by
  induction h with
  | refl => exact ⟨le_rfl, List.prefix_rfl, rfl⟩
  | tail _ hm ih =>
    obtain ⟨hc, ha, hi⟩ := move_grows hm
    exact ⟨ih.1.trans hc, ih.2.1.trans ha, hi.trans ih.2.2⟩

theorem moves_stay (h : Moves peer e t) (hs : e.channel.inFlightPacket = some p) :
    (t.channel.inFlightPacket = some p ∧ t.channel.localSeq = e.channel.localSeq ∧
      t.canSends = e.canSends) ∨ e.canSends < t.canSends := by
  induction h with
  | refl => exact Or.inl ⟨hs, rfl, rfl⟩
  | tail _ hm ih =>
    rcases ih with ⟨hp, hl, hc⟩ | hc
    · rcases move_stays hm hp with ⟨hp', hl', hc'⟩ | hc'
      · exact Or.inl ⟨hp', hl'.trans hl, hc'.trans hc⟩
      · exact Or.inr (by omega)
    · exact Or.inr (hc.trans_le (move_grows hm).1)

theorem sound_at (hv : Valid cid E) (n : ℕ) : (E.state n).Sound := by
  induction n with
  | zero =>
    rw [hv.initial]
    exact sound_new cid
  | succ n ih =>
    cases he : E.event n with
    | none => rwa [hv.rest n he]
    | some a =>
      rw [hv.step n a he]
      exact sound_step ih a

/-- From one moment to the next each end makes moves against its peer, or none. -/
theorem moves_succ (hv : Valid cid E) (n : ℕ) (i : Side) :
    Moves (E.state n i.other) (E.state n i) (E.state (n + 1) i) := by
  cases he : E.event n with
  | none => rw [hv.rest n he]
  | some a =>
    have hm := action_moves (sound_at hv n).slot a
    rw [hv.step n a he, System.step]
    by_cases hi : i = (a.result (E.state n)).1
    · subst hi
      rwa [Function.update_self]
    · rw [Function.update_of_ne hi]

theorem cid_at (hv : Valid cid E) (n : ℕ) (i : Side) : (E.state n i).channel.cid = cid := by
  induction n with
  | zero => simp [hv.initial, System.new, Endpoint.new, ReliableChannel.new]
  | succ n ih => exact (moves_grow (moves_succ hv n i)).2.2.trans ih

theorem accepted_mono (hv : Valid cid E) (h : m ≤ n) (i : Side) :
    (E.state m i).accepted.IsPrefix (E.state n i).accepted := by
  induction n, h using Nat.le_induction with
  | base => exact List.prefix_rfl
  | succ n _ ih => exact ih.trans (moves_grow (moves_succ hv n i)).2.1

theorem canSends_mono (hv : Valid cid E) (h : m ≤ n) (i : Side) :
    (E.state m i).canSends ≤ (E.state n i).canSends := by
  induction n, h using Nat.le_induction with
  | base => exact le_rfl
  | succ n _ ih => exact ih.trans (moves_grow (moves_succ hv n i)).1

/-- As long as no `canSend` is emitted, the slot and its number stay. -/
theorem slot_stays (hv : Valid cid E) (hs : (E.state m i).channel.inFlightPacket = some p)
    (hn : ∀ n, m ≤ n → (E.state n i).channel.inFlightPacket = some p →
      ¬ (E.state n i).canSends < (E.state (n + 1) i).canSends) (h : m ≤ n) :
    (E.state n i).channel.inFlightPacket = some p ∧
      (E.state n i).channel.localSeq = (E.state m i).channel.localSeq ∧
      (E.state n i).canSends = (E.state m i).canSends := by
  induction n, h using Nat.le_induction with
  | base => exact ⟨hs, rfl, rfl⟩
  | succ n hmn ih =>
    rcases moves_stay (moves_succ hv n i) ih.1 with ⟨hp, hl, hc⟩ | hc
    · exact ⟨hp, hl.trans ih.2.1, hc.trans ih.2.2⟩
    · exact absurd hc (hn n hmn ih.1)

/-- The frames of an exchange, which depend on nothing but the id, the number and the payload. -/
def dataOf (cid : UInt8) (seq : UInt32) (payload : Bytes) : Packet :=
  .ofBytes ((ReliablePacketHeader.mk cid 0 seq).bytes ++ payload)

def ackOf (cid : UInt8) (seq : UInt32) : Packet :=
  .ofBytes (ReliablePacketHeader.mk cid ReliablePacketHeader.ACK seq).bytes

/-- Transmitting a full slot writes its frame. -/
theorem writes_data (hv : Valid cid E) {next : WriteResult}
    (he : E.event n = some (.transmitQueue i next))
    (hs : (E.state n i).channel.inFlightPacket = some p) :
    Writes E i (dataOf cid (E.state n i).channel.localSeq p.contents) n := by
  obtain ⟨v, rfl⟩ := (sound_at hv n).slot i p hs
  refine ⟨_, he, rfl, ?_⟩
  simp only [Action.outputs, transmitQueue_eq hs next, Option.map_some, Option.getD_some,
    List.mem_singleton, dataFrame, dataOf, cid_at hv n i]

/-- Every copy of a data frame is acknowledged, whether or not it is new. -/
theorem writes_ack (hv : Valid cid E) {seq : UInt32} {payload : Bytes}
    (h : Reads E i (dataOf cid seq payload) n) : Writes E i (ackOf cid seq) n := by
  obtain ⟨k, calls, x, he, hx, hframe⟩ := h
  refine ⟨_, he, rfl, ?_⟩
  have hack : (E.state n i).channel.ackFrame seq = ackOf cid seq := by
    rw [ackFrame, cid_at hv n i, ackOf]
  have hh : ReliablePacketHeader.ofData x.frame = some ⟨cid, 0, seq⟩ := by
    rw [hframe]
    exact ReliablePacketHeader.ofData_ofBytes _ payload
  simp only [Action.outputs, hx]
  rcases readPacket_cases (E.state n i).channel (calls.map Packet.View.toPacket) hh with
    ⟨hf, _, _⟩ | ⟨_, _, hr⟩ | ⟨_, _, hr⟩ | ⟨hf, _, _⟩
  · simp at hf
  · simp [hr, hack]
  · simp [hr, hack]
  · exact absurd rfl hf

/-- The acknowledgement of the number in flight is the end of the wait. -/
theorem canSend_of_reads (hv : Valid cid E) (h : Reads E i (ackOf cid seq) n)
    (hl : (E.state n i).channel.localSeq = seq) :
    (E.state n i).canSends < (E.state (n + 1) i).canSends := by
  obtain ⟨k, calls, x, he, hx, hframe⟩ := h
  have hh : ReliablePacketHeader.ofData x.frame =
      some ⟨cid, ReliablePacketHeader.ACK, seq⟩ := by
    have := ReliablePacketHeader.ofData_ofBytes ⟨cid, ReliablePacketHeader.ACK, seq⟩ []
    rwa [List.append_nil, ← ackOf, ← hframe] at this
  rw [hv.step n _ he]
  rcases readPacket_cases (E.state n i).channel (calls.map Packet.View.toPacket) hh with
    ⟨_, _, hr⟩ | ⟨hf, _, _⟩ | ⟨hf, _, _⟩ | ⟨_, hn, _⟩
  · simp only [System.step, Action.result, hx, hr, Function.update_self]
    rw [(line_after _ _ _ _).2, List.count_cons_self]
    omega
  · simp [ReliablePacketHeader.ACK] at hf
  · simp [ReliablePacketHeader.ACK] at hf
  · exact absurd ⟨by simp [ReliablePacketHeader.ACK], hl⟩ hn

/-- In a fair execution the packet in the slot is acknowledged some time: as long as it is not,
the same frame is written again and again, hence read again and again, hence acknowledged again
and again with the number the sender waits for. -/
theorem eventually_acked (hv : Valid cid E) (hf : Fair E)
    (hs : (E.state m i).channel.inFlightPacket = some p) :
    ∃ n, m ≤ n ∧ (E.state n i).channel.inFlightPacket = some p ∧
      (E.state n i).canSends < (E.state (n + 1) i).canSends := by
  by_contra hno
  have hnever : ∀ n, m ≤ n → (E.state n i).channel.inFlightPacket = some p →
      ¬ (E.state n i).canSends < (E.state (n + 1) i).canSends :=
    fun n hn hp hc => hno ⟨n, hn, hp, hc⟩
  have hstays := fun n (hn : m ≤ n) => slot_stays hv hs hnever hn
  generalize hseq : (E.state m i).channel.localSeq = seq at hstays
  have hdata : ∀ k, ∃ n, k ≤ n ∧ Writes E i (dataOf cid seq p.contents) n := by
    intro k
    obtain ⟨n, next, hn, he⟩ := hf.retransmits i (max m k) fun n hn => by
      rw [(hstays n (le_trans (le_max_left m k) hn)).1]
      rfl
    have hst := hstays n (le_trans (le_max_left m k) hn)
    refine ⟨n, le_trans (le_max_right m k) hn, ?_⟩
    rw [← hst.2.1]
    exact writes_data hv he hst.1
  have hacks : ∀ k, ∃ n, k ≤ n ∧ Writes E i.other (ackOf cid seq) n := by
    intro k
    obtain ⟨n, hn, hr⟩ := hf.delivers i _ hdata k
    exact ⟨n, hn, writes_ack hv hr⟩
  obtain ⟨n, hn, hr⟩ := hf.delivers i.other _ hacks m
  rw [Side.other_other] at hr
  have hst := hstays n hn
  exact hnever n hn hst.1 (canSend_of_reads hv hr hst.2.1)

/-- Packets before the one in flight have reached the receiver, except for the first. -/
theorem seen_of_acked {S R : Endpoint} (hl : Lockstep S R) (hd : S.Drained) {k : ℕ}
    (hk : k < S.canSends) (hsmall : k < 2 ^ 32) : k ≤ R.channel.peerSeq.toNat := by
  by_cases hw : S.canSends < 2 ^ 32
  · have := (counting_of_small hl hd hw).lead
    omega
  · rcases hl.phase with hc | hw'
    · exact absurd hc.small hw
    · have := hw'.peerSeq
      omega

/-- What the receiver has seen, it has emitted at its place. -/
theorem emitted_of_seen {S R : Endpoint} (hl : Lockstep S R) {k : ℕ}
    (hk : S.accepted[k]? = some p) (hpos : 0 < k) (hle : k ≤ R.channel.peerSeq.toNat) :
    R.emitted[k - 1]? = some p.contents := by
  have hget := congrArg (·[k - 1]?) hl.emitted
  simp only [hl.delivered, List.getElem?_map] at hget
  have hrange : (List.range' 1 R.channel.peerSeq.toNat)[k - 1]? = some k := by
    rw [List.getElem?_range' (by omega)]
    simp
    omega
  rw [hrange] at hget
  simpa [hk] using hget

/-- In every fair execution, whatever else is lost, repeated or reordered: a full slot becomes free
again. For every accepted packet `canSend` is emitted, and by then the peer has emitted the packet,
at its place in the order of acceptance, unless it is the first one or the counter has come to its
end. -/
theorem fair_progress (hv : Valid cid E) (hf : Fair E) (i : Side) (m : ℕ) :
    (∀ p, (E.state m i).channel.inFlightPacket = some p →
      ∃ n, m ≤ n ∧ (E.state n i).channel.inFlightPacket = some p ∧
        (E.state n i).canSends < (E.state (n + 1) i).canSends) ∧
    ∀ k p, (E.state m i).accepted[k]? = some p →
      (∃ n, m ≤ n ∧ k < (E.state n i).canSends) ∧
      ∀ n, m ≤ n → k < (E.state n i).canSends → 0 < k → k < 2 ^ 32 →
        (E.state n i.other).emitted[k - 1]? = some p.contents := by
  refine ⟨fun p hs => eventually_acked hv hf hs, fun k p hk => ?_⟩
  have hlt : k < (E.state m i).accepted.length := (List.getElem?_eq_some_iff.mp hk).1
  constructor
  · have hd : (E.state m i).Drained := (sound_at hv m).drained i
    unfold Endpoint.Drained at hd
    cases hs : (E.state m i).channel.inFlightPacket with
    | none =>
      simp only [hs, Option.isSome_none, Bool.false_eq_true, if_false] at hd
      exact ⟨m, le_rfl, by omega⟩
    | some q =>
      simp only [hs, Option.isSome_some, if_true] at hd
      obtain ⟨n, hmn, -, hc⟩ := eventually_acked hv hf hs
      have := canSends_mono hv hmn i
      exact ⟨n + 1, by omega, by omega⟩
  · intro n hmn hn hpos hsmall
    have hkn : (E.state n i).accepted[k]? = some p := by
      obtain ⟨more, hmore⟩ := accepted_mono hv hmn i
      rw [← hmore, List.getElem?_append_left hlt, hk]
    have hsound := sound_at hv n
    exact emitted_of_seen (hsound.lockstep i) hkn hpos
      (seen_of_acked (hsound.lockstep i) (hsound.drained i) hn hsmall)

def Execution.stateAt (cid : UInt8) (event : ℕ → Option Action) : ℕ → System
  | 0 => .new cid
  | n + 1 => (event n).elim (stateAt cid event n) (System.step (stateAt cid event n))

def Execution.ofEvents (cid : UInt8) (event : ℕ → Option Action) : Execution :=
  ⟨stateAt cid event, event⟩

theorem valid_ofEvents (cid : UInt8) (event : ℕ → Option Action) :
    Valid cid (.ofEvents cid event) where
  initial := rfl
  rest n h := by
    change event n = none at h
    simp [Execution.ofEvents, Execution.stateAt, h]
  step n a h := by
    change event n = some a at h
    simp [Execution.ofEvents, Execution.stateAt, h]

/-- Two packets of which every frame is lost once and sent again. -/
def lossy : List Action :=
  (exchange 7 0).take 2 ++ [.transmitQueue .a (.returned true), .readPacket .b 1 [],
    .readPacket .b 0 [], .readPacket .a 1 []] ++
  (exchange 8 0).take 2 ++ [.transmitQueue .a (.returned true), .readPacket .b 3 [],
    .readPacket .b 2 [], .readPacket .a 3 []]

/-- After them, late copies of the first data frame and of its acknowledgement for ever. -/
def lossyEvent (n : ℕ) : Option Action :=
  some (lossy[n]?.getD (if n % 2 = 0 then .readPacket .b 0 [] else .readPacket .a 0 []))

/-- Both ends have done with the two packets. -/
structure Settled (s : System) : Prop where
  sender : (s .a).channel = ⟨1, false, none, 2, 0⟩
  receiver : (s .b).channel = ⟨1, false, none, 0, 1⟩
  data : (s .a).sent[0]? = some ⟨dataOf 1 0 [7], 0⟩
  ack : (s .b).sent[0]? = some ⟨ackOf 1 0, 0⟩

theorem settled_data {s : System} (h : Settled s) :
    (Action.readPacket .b 0 []).outputs s = [.write (ackOf 1 0)] ∧
      Settled (System.step s (.readPacket .b 0 [])) := by
  have hread : (s .b).channel.readPacket [] (dataOf 1 0 [7]) =
      some ((s .b).channel, [.write (ackOf 1 0)]) := by
    rw [h.receiver]
    decide
  have hdata : (s (Side.other .b)).sent[0]? = some ⟨dataOf 1 0 [7], 0⟩ := h.data
  have hstep : System.step s (.readPacket .b 0 []) = Function.update s .b { s .b with
      sent := (s .b).sent ++ [⟨ackOf 1 0, (s .b).accepted.length - 1⟩] } := by
    simp [System.step, Action.result, hdata, hread, Endpoint.after, Endpoint.observe]
  have hack : ((s .b).sent ++ [⟨ackOf 1 0, (s .b).accepted.length - 1⟩])[0]? =
      some ⟨ackOf 1 0, 0⟩ := by
    rw [List.getElem?_append_left (List.getElem?_eq_some_iff.mp h.ack).1, h.ack]
  refine ⟨by simp [Action.outputs, hdata, hread], ?_⟩
  rw [hstep]
  exact ⟨h.sender, h.receiver, h.data, hack⟩

theorem settled_ack {s : System} (h : Settled s) :
    (Action.readPacket .a 0 []).outputs s = [] ∧
      Settled (System.step s (.readPacket .a 0 [])) := by
  have hread : (s .a).channel.readPacket [] (ackOf 1 0) = some ((s .a).channel, []) := by
    rw [h.sender]
    decide
  have hack : (s (Side.other .a)).sent[0]? = some ⟨ackOf 1 0, 0⟩ := h.ack
  have hstep : System.step s (.readPacket .a 0 []) = s := by
    simp [System.step, Action.result, hack, hread, Endpoint.after]
  refine ⟨?_, by rwa [hstep]⟩
  simp [Action.outputs, hack, hread]

theorem lossyEvent_late {n : ℕ} (h : 12 ≤ n) :
    lossyEvent n = some (if n % 2 = 0 then .readPacket .b 0 [] else .readPacket .a 0 []) := by
  rw [lossyEvent, List.getElem?_eq_none h, Option.getD_none]

theorem settled_late {n : ℕ} (h : 12 ≤ n) :
    Settled ((Execution.ofEvents 1 lossyEvent).state n) := by
  induction n, h using Nat.le_induction with
  | base => constructor <;> decide
  | succ n hn ih =>
    rw [(valid_ofEvents 1 lossyEvent).step n _ (lossyEvent_late hn)]
    split
    · exact (settled_data ih).2
    · exact (settled_ack ih).2

/-- The only frame that is written for ever is that acknowledgement, and it keeps arriving. -/
theorem fair_lossy : Fair (.ofEvents 1 lossyEvent) where
  delivers i frame hw m := by
    obtain ⟨n, hn, a, he, hi, hframe⟩ := hw 12
    have hlate := (lossyEvent_late hn).symm.trans he
    have hs := settled_late hn
    split at hlate
    · obtain rfl := Option.some.inj hlate
      obtain rfl : .b = i := hi
      rw [(settled_data hs).1, List.mem_singleton, Output.write.injEq] at hframe
      subst hframe
      have hodd : 12 ≤ 2 * (m + 6) + 1 := by omega
      refine ⟨2 * (m + 6) + 1, by omega, 0, [], ⟨ackOf 1 0, 0⟩, ?_, (settled_late hodd).ack, rfl⟩
      exact (lossyEvent_late hodd).trans (by rw [if_neg (by omega)]; rfl)
    · obtain rfl := Option.some.inj hlate
      rw [(settled_ack hs).1] at hframe
      cases hframe
  retransmits i m hs := by
    have hlast := hs (m + 12) (by omega)
    have h := settled_late (n := m + 12) (by omega)
    cases i with
    | a => simp [h.sender] at hlast
    | b => simp [h.receiver] at hlast

/-- The second packet arrives although each of its frames is lost once. -/
theorem fair_progress_lossy :
    let E := Execution.ofEvents 1 lossyEvent
    (E.state 7 .a).channel.inFlightPacket = some (.ofBytes [8]) ∧
    (∃ n, 7 ≤ n ∧ (E.state n .a).channel.inFlightPacket = some (.ofBytes [8]) ∧
      (E.state n .a).canSends < (E.state (n + 1) .a).canSends) ∧
    ∃ n, 7 ≤ n ∧ 1 < (E.state n .a).canSends ∧ (E.state n .b).emitted[0]? = some [8] := by
  intro E
  have h := fair_progress (valid_ofEvents 1 lossyEvent) fair_lossy .a 7
  obtain ⟨⟨n, hn, hacked⟩, hemitted⟩ := h.2 1 (.ofBytes [8]) (by decide)
  exact ⟨by decide, h.1 _ (by decide), n, hn, hacked,
    hemitted n hn hacked (by decide) (by decide)⟩

end Wetnork.Reliable
