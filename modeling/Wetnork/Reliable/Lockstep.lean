import Wetnork.Reliable.System

/-! The invariant of one direction: sender `S`, receiver `R`, and every frame between them. -/
namespace Wetnork.Reliable

open ReliableChannel

/-- Before the counter wraps, sequence numbers are positions in the list of accepted packets. -/
structure Counting (S R : Endpoint) : Prop where
  small : S.canSends < 2 ^ 32
  localSeq : S.channel.localSeq.toNat = S.canSends
  empty : S.channel.inFlightPacket = none → S.accepted.length = S.canSends
  full : ∀ p, S.channel.inFlightPacket = some p →
    S.accepted.length = S.canSends + 1 ∧ S.accepted[S.canSends]? = some p
  lead : S.canSends ≤ R.channel.peerSeq.toNat + 1
  data : ∀ x ∈ S.sent, ∀ h, ReliablePacketHeader.ofData x.frame = some h → h.flags = 0 →
    h.seq.toNat = x.position ∧ ∃ p, S.accepted[x.position]? = some p ∧
      (x.frame.skip ReliablePacketHeader.size).contents = p.contents
  acks : ∀ x ∈ R.sent, ∀ h, ReliablePacketHeader.ofData x.frame = some h → h.flags ≠ 0 →
    h.seq.toNat < S.accepted.length ∧ h.seq.toNat ≤ R.channel.peerSeq.toNat

/-- After the wrap the receiver compares against the largest counter value for ever. -/
structure Wrapped (S R : Endpoint) : Prop where
  peerSeq : R.channel.peerSeq.toNat = 2 ^ 32 - 1
  accepted : 2 ^ 32 ≤ S.accepted.length
  full : S.channel.inFlightPacket ≠ none → 2 ^ 32 < S.accepted.length

/-- What has been emitted is exactly positions `1` to `peerSeq` of what was accepted. -/
structure Lockstep (S R : Endpoint) : Prop where
  delivered : R.delivered = List.range' 1 R.channel.peerSeq.toNat
  emitted : R.emitted.map some = R.delivered.map fun k => (S.accepted[k]?).map Packet.contents
  seen : R.channel.peerSeq.toNat = 0 ∨ R.channel.peerSeq.toNat < S.accepted.length
  slot : ∀ p, S.channel.inFlightPacket = some p → S.accepted.getLast? = some p
  phase : Counting S R ∨ Wrapped S R

variable {S R T : Endpoint}

theorem lockstep_new (cid : UInt8) : Lockstep (.new cid) (.new cid) where
  delivered := rfl
  emitted := rfl
  seen := Or.inl rfl
  slot := by intro p hp; cases hp
  phase := Or.inl {
    small := by simp [Endpoint.new]
    localSeq := rfl
    empty := fun _ => rfl
    full := by intro p hp; cases hp
    lead := Nat.zero_le _
    data := by intro x hx; cases hx
    acks := by intro x hx; cases hx }

theorem Counting.accepted_le (hc : Counting S R) : S.accepted.length ≤ S.canSends + 1 := by
  cases hs : S.channel.inFlightPacket with
  | none =>
    have := hc.empty hs
    omega
  | some p => exact (hc.full p hs).1.le

/-- The numbers of data frames are positions of accepted packets. -/
theorem Counting.seq_lt (hc : Counting S R) {x : Sent} {h : ReliablePacketHeader}
    (hx : x ∈ S.sent) (hh : ReliablePacketHeader.ofData x.frame = some h) (hf : h.flags = 0) :
    h.seq.toNat < S.accepted.length := by
  obtain ⟨hseq, p, hp, _⟩ := hc.data x hx h hh hf
  have hlt : x.position < S.accepted.length := (List.getElem?_eq_some_iff.mp hp).1
  omega

theorem Lockstep.lt_of_mem (hl : Lockstep S R) {k : ℕ} (hk : k ∈ R.delivered) :
    k < S.accepted.length := by
  rw [hl.delivered, List.mem_range'_1] at hk
  rcases hl.seen with hs | hs <;> omega

theorem ofData_dataFrame (ch : ReliableChannel) (payload : Bytes) :
    ReliablePacketHeader.ofData (ch.dataFrame payload) = some ⟨ch.cid, 0, ch.localSeq⟩ :=
  ReliablePacketHeader.ofData_ofBytes _ payload

theorem ofData_ackFrame (ch : ReliableChannel) (seq : UInt32) :
    ReliablePacketHeader.ofData (ch.ackFrame seq) =
      some ⟨ch.cid, ReliablePacketHeader.ACK, seq⟩ := by
  have h := ReliablePacketHeader.ofData_ofBytes ⟨ch.cid, ReliablePacketHeader.ACK, seq⟩ []
  rwa [List.append_nil] at h

theorem dataFrame_payload (ch : ReliableChannel) (v : Packet.View) :
    ((ch.dataFrame v.contents).skip ReliablePacketHeader.size).contents = v.contents :=
  ReliablePacketHeader.skip_frame _ v.contents

theorem flags_ne_zero {h : ReliablePacketHeader}
    (hf : h.flags &&& ReliablePacketHeader.ACK ≠ 0) : h.flags ≠ 0 := by
  intro hz
  simp [hz] at hf

theorem counting_accept (hc : Counting S R) (p : Packet) (hs : S.channel.inFlightPacket = none) :
    Counting { S with channel := { S.channel with inFlightPacket := some p }
                      accepted := S.accepted ++ [p] } R where
  small := hc.small
  localSeq := hc.localSeq
  empty := by intro hn; cases hn
  full := by
    intro q hq
    have he := hc.empty hs
    cases hq
    simp [he]
  lead := hc.lead
  data := by
    intro x hx h hh hf
    obtain ⟨hseq, q, hq, hcon⟩ := hc.data x hx h hh hf
    have hlt : x.position < S.accepted.length := (List.getElem?_eq_some_iff.mp hq).1
    exact ⟨hseq, q, by simpa [List.getElem?_append_left hlt] using hq, hcon⟩
  acks := by
    intro x hx h hh hf
    obtain ⟨ha, hp⟩ := hc.acks x hx h hh hf
    refine ⟨?_, hp⟩
    rw [List.length_append]
    omega

theorem lockstep_accept (hl : Lockstep S R) (p : Packet)
    (hs : S.channel.inFlightPacket = none) :
    Lockstep { S with channel := { S.channel with inFlightPacket := some p }
                      accepted := S.accepted ++ [p] } R where
  delivered := hl.delivered
  emitted := by
    rw [hl.emitted]
    apply List.map_congr_left
    intro k hk
    rw [List.getElem?_append_left (hl.lt_of_mem hk)]
  seen := by
    rcases hl.seen with h | h
    · exact Or.inl h
    · refine Or.inr ?_
      rw [List.length_append]
      omega
  slot := by
    intro q hq
    cases hq
    simp
  phase := by
    rcases hl.phase with hc | hw
    · exact Or.inl (counting_accept hc p hs)
    · have ha := hw.accepted
      refine Or.inr ⟨hw.peerSeq, ?_, fun _ => ?_⟩ <;>
        simp only [List.length_append, List.length_singleton] <;> omega

/-- Changes that the direction from `S` to `R` cannot see. -/
theorem lockstep_congr {S' R' : Endpoint} (hl : Lockstep S R)
    (hs : S'.channel.localSeq = S.channel.localSeq ∧
      S'.channel.inFlightPacket = S.channel.inFlightPacket ∧ S'.accepted = S.accepted ∧
      S'.canSends = S.canSends)
    (hr : R'.channel.peerSeq = R.channel.peerSeq ∧ R'.emitted = R.emitted ∧
      R'.delivered = R.delivered)
    (hdata : ∀ x ∈ S'.sent, x ∈ S.sent ∨
      ∀ h, ReliablePacketHeader.ofData x.frame = some h → h.flags ≠ 0)
    (hacks : ∀ x ∈ R'.sent, x ∈ R.sent ∨
      ∀ h, ReliablePacketHeader.ofData x.frame = some h → h.flags = 0) : Lockstep S' R' := by
  obtain ⟨hs1, hs2, hs3, hs4⟩ := hs
  obtain ⟨hr1, hr2, hr3⟩ := hr
  refine ⟨by rw [hr3, hr1, hl.delivered], by rw [hr2, hr3, hs3, hl.emitted],
    by rw [hr1, hs3]; exact hl.seen, by rw [hs2, hs3]; exact hl.slot, ?_⟩
  rcases hl.phase with hc | hw
  · left
    refine ⟨by rw [hs4]; exact hc.small, by rw [hs1, hs4]; exact hc.localSeq,
      by rw [hs2, hs3, hs4]; exact hc.empty, by rw [hs2, hs3, hs4]; exact hc.full,
      by rw [hs4, hr1]; exact hc.lead, ?_, ?_⟩
    · intro x hx h hh hf
      rw [hs3]
      rcases hdata x hx with hx' | hx'
      · exact hc.data x hx' h hh hf
      · exact (hx' h hh hf).elim
    · intro x hx h hh hf
      rw [hs3, hr1]
      rcases hacks x hx with hx' | hx'
      · exact hc.acks x hx' h hh hf
      · exact (hf (hx' h hh)).elim
  · right
    exact ⟨by rw [hr1]; exact hw.peerSeq, by rw [hs3]; exact hw.accepted,
      by rw [hs2, hs3]; exact hw.full⟩

theorem lockstep_transmit (hl : Lockstep S R) (v : Packet.View) (timeout : Bool)
    (hs : S.channel.inFlightPacket = some v.toPacket) :
    Lockstep { S with
      channel := { S.channel with timeout := timeout }
      sent := S.sent ++ [⟨S.channel.dataFrame v.contents, S.accepted.length - 1⟩] } R := by
  refine ⟨hl.delivered, hl.emitted, hl.seen, hl.slot, ?_⟩
  rcases hl.phase with hc | hw
  · left
    obtain ⟨hlen, hget⟩ := hc.full v.toPacket hs
    refine ⟨hc.small, hc.localSeq, hc.empty, hc.full, hc.lead, ?_, hc.acks⟩
    intro x hx h hh hf
    rcases List.mem_append.mp hx with hx | hx
    · exact hc.data x hx h hh hf
    · obtain rfl := List.mem_singleton.mp hx
      rw [ofData_dataFrame] at hh
      cases hh
      have hp : S.accepted.length - 1 = S.canSends := by omega
      exact ⟨hc.localSeq.trans hp.symm, v.toPacket, by rw [hp]; exact hget,
        dataFrame_payload S.channel v⟩
  · exact Or.inr ⟨hw.peerSeq, hw.accepted, hw.full⟩

/-- An acknowledgement always finds its packet in flight; the one of the last counter value
proves that the receiver has reached it too. -/
theorem lockstep_acked (hl : Lockstep S R) {x : Sent} {h : ReliablePacketHeader}
    (hx : x ∈ R.sent) (hh : ReliablePacketHeader.ofData x.frame = some h) (hf : h.flags ≠ 0)
    (hseq : S.channel.localSeq = h.seq) :
    Lockstep { S with
      channel := { S.channel with
        localSeq := S.channel.localSeq + 1, inFlightPacket := none, timeout := false }
      canSends := S.canSends + 1 } R := by
  refine ⟨hl.delivered, hl.emitted, hl.seen, (by intro p hp; cases hp), ?_⟩
  rcases hl.phase with hc | hw
  · obtain ⟨hacc, hpeer⟩ := hc.acks x hx h hh hf
    have hsmall := hc.small
    have hloc := hc.localSeq
    rw [← hseq] at hacc hpeer
    have hle := hc.accepted_le
    have hlen : S.accepted.length = S.canSends + 1 := by omega
    by_cases hlast : S.canSends + 1 < 2 ^ 32
    · left
      refine ⟨hlast, ?_, fun _ => hlen, ?_, ?_, hc.data, hc.acks⟩
      · rw [UInt32.toNat_add, hloc]
        exact Nat.mod_eq_of_lt hlast
      · intro p hp
        cases hp
      · change S.canSends + 1 ≤ R.channel.peerSeq.toNat + 1
        omega
    · right
      have hmax := R.channel.peerSeq.toNat_lt
      refine ⟨by omega, ?_, fun hn => (hn rfl).elim⟩
      change 2 ^ 32 ≤ S.accepted.length
      omega
  · exact Or.inr ⟨hw.peerSeq, hw.accepted, fun hn => (hn rfl).elim⟩

/-- A new data frame is always the direct successor of the last one. -/
theorem lockstep_receive (hl : Lockstep S R) {x : Sent} {h : ReliablePacketHeader}
    (hx : x ∈ S.sent) (hh : ReliablePacketHeader.ofData x.frame = some h) (hf : h.flags = 0)
    (hnew : R.channel.peerSeq < h.seq) :
    Lockstep S { R with
      channel := { R.channel with peerSeq := h.seq }
      emitted := R.emitted ++ [(x.frame.skip ReliablePacketHeader.size).contents]
      delivered := R.delivered ++ [x.position] } := by
  rw [UInt32.lt_iff_toNat_lt] at hnew
  rcases hl.phase with hc | hw
  · obtain ⟨hseq, p, hp, hcon⟩ := hc.data x hx h hh hf
    have hseen := hc.seq_lt hx hh hf
    have hlen := hc.accepted_le
    have hlead := hc.lead
    have hnext : h.seq.toNat = R.channel.peerSeq.toNat + 1 := by omega
    have hlead' : S.canSends ≤ h.seq.toNat + 1 := by omega
    refine ⟨?_, ?_, Or.inr hseen, hl.slot, Or.inl
      ⟨hc.small, hc.localSeq, hc.empty, hc.full, hlead', hc.data, ?_⟩⟩
    · change R.delivered ++ [x.position] = List.range' 1 h.seq.toNat
      rw [hl.delivered, ← hseq, hnext, List.range'_1_concat, Nat.add_comm 1]
    · rw [List.map_append, List.map_append, hl.emitted]
      simp [hp, hcon]
    · intro y hy g hg hgf
      obtain ⟨ha, hle⟩ := hc.acks y hy g hg hgf
      exact ⟨ha, by change g.seq.toNat ≤ h.seq.toNat; omega⟩
  · have hmax := hw.peerSeq
    have hlt := h.seq.toNat_lt
    omega

theorem lockstep_acknowledge (hl : Lockstep S R) {x : Sent} {h : ReliablePacketHeader}
    (hx : x ∈ S.sent) (hh : ReliablePacketHeader.ofData x.frame = some h) (hf : h.flags = 0)
    (hold : h.seq ≤ R.channel.peerSeq) :
    Lockstep S { R with
      sent := R.sent ++ [⟨R.channel.ackFrame h.seq, R.accepted.length - 1⟩] } := by
  rw [UInt32.le_iff_toNat_le] at hold
  refine ⟨hl.delivered, hl.emitted, hl.seen, hl.slot, ?_⟩
  rcases hl.phase with hc | hw
  · left
    have hacc := hc.seq_lt hx hh hf
    refine ⟨hc.small, hc.localSeq, hc.empty, hc.full, hc.lead, hc.data, ?_⟩
    intro y hy g hg hgf
    rcases List.mem_append.mp hy with hy | hy
    · exact hc.acks y hy g hg hgf
    · obtain rfl := List.mem_singleton.mp hy
      rw [ofData_ackFrame] at hg
      cases hg
      exact ⟨hacc, hold⟩
  · exact Or.inr ⟨hw.peerSeq, hw.accepted, hw.full⟩

/-- Whatever the sender does keeps its direction in lockstep. -/
theorem lockstep_sender (hm : Move R S T) (hl : Lockstep S R) : Lockstep T R := by
  cases hm with
  | accept p hs => exact lockstep_accept hl p.toPacket hs
  | transmit v timeout hs => exact lockstep_transmit hl v timeout hs
  | acked x h hx hh hf hseq => exact lockstep_acked hl hx hh (flags_ne_zero hf) hseq
  | receive x h hx hh hf hnew =>
    exact lockstep_congr hl ⟨rfl, rfl, rfl, rfl⟩ ⟨rfl, rfl, rfl⟩ (fun _ hy => Or.inl hy)
      (fun _ hy => Or.inl hy)
  | acknowledge x h hx hh hf hold =>
    refine lockstep_congr hl ⟨rfl, rfl, rfl, rfl⟩ ⟨rfl, rfl, rfl⟩ ?_ (fun _ hy => Or.inl hy)
    intro y hy
    rcases List.mem_append.mp hy with hy | hy
    · exact Or.inl hy
    · obtain rfl := List.mem_singleton.mp hy
      right
      intro g hg
      rw [ofData_ackFrame] at hg
      cases hg
      exact (by decide : ReliablePacketHeader.ACK ≠ 0)

/-- Whatever the receiver does keeps the direction towards it in lockstep. -/
theorem lockstep_receiver (hm : Move S R T) (hl : Lockstep S R) : Lockstep S T := by
  cases hm with
  | accept p hs =>
    exact lockstep_congr hl ⟨rfl, rfl, rfl, rfl⟩ ⟨rfl, rfl, rfl⟩ (fun _ hy => Or.inl hy)
      (fun _ hy => Or.inl hy)
  | transmit v timeout hs =>
    refine lockstep_congr hl ⟨rfl, rfl, rfl, rfl⟩ ⟨rfl, rfl, rfl⟩ (fun _ hy => Or.inl hy) ?_
    intro y hy
    rcases List.mem_append.mp hy with hy | hy
    · exact Or.inl hy
    · obtain rfl := List.mem_singleton.mp hy
      right
      intro g hg
      rw [ofData_dataFrame] at hg
      cases hg
      rfl
  | acked x h hx hh hf hseq =>
    exact lockstep_congr hl ⟨rfl, rfl, rfl, rfl⟩ ⟨rfl, rfl, rfl⟩ (fun _ hy => Or.inl hy)
      (fun _ hy => Or.inl hy)
  | receive x h hx hh hf hnew => exact lockstep_receive hl hx hh hf hnew
  | acknowledge x h hx hh hf hold => exact lockstep_acknowledge hl hx hh hf hold

/-- Both directions of every reachable system are in lockstep. -/
theorem lockstep_run (cid : UInt8) (actions : List Action) (i : Side) :
    let s := Runs.run System.step (System.new cid) actions
    Lockstep (s i) (s i.other) :=
  run_invariant cid (lockstep_new cid) (fun hm _ hl _ => lockstep_sender hm hl)
    (fun hm _ hl _ => lockstep_receiver hm hl) actions i

end Wetnork.Reliable
