import Mathlib.Data.List.NodupEquivFin
import Wetnork.Reliable.Lockstep

/-! What the two ends of a reliable channel observe of each other. -/
namespace Wetnork.Reliable

open ReliableChannel

/-- What is read off at strictly increasing positions is a subsequence. -/
theorem sublist_of_increasing {α : Type*} {l xs : List α} {ps : List ℕ}
    (hp : ps.Pairwise (· < ·)) (h : xs.map some = ps.map (l[·]?)) :
    xs.Sublist l := by
  have hlen : xs.length = ps.length := by simpa using congrArg List.length h
  have hget : ∀ n : Fin xs.length, l[ps.get (n.cast hlen)]? = some (xs.get n) := by
    intro n
    have hn := congrArg (·[n.val]?) h
    have hx := n.isLt
    have hq : n.val < ps.length := by omega
    simpa [hx, hq] using hn.symm
  have hlt : ∀ n : Fin xs.length, ps.get (n.cast hlen) < l.length :=
    fun n => (List.getElem?_eq_some_iff.mp (hget n)).1
  rw [List.sublist_iff_exists_fin_orderEmbedding_get_eq]
  refine ⟨OrderEmbedding.ofStrictMono (fun n => ⟨ps.get (n.cast hlen), hlt n⟩) ?_, ?_⟩
  · intro a b hab
    exact List.pairwise_iff_get.mp hp _ _ hab
  · intro n
    exact ((List.getElem?_eq_some_iff.mp (hget n)).2).symm

/-- The peer emits accepted packets in acceptance order, each position at most once, unaltered.
Nothing is assumed about the length of the run: after the counter wraps, nothing is emitted. -/
theorem at_most_once_in_order (cid : UInt8) (actions : List Action) (i : Side) :
    let s := Runs.run System.step (System.new cid) actions
    (s i.other).delivered.Pairwise (· < ·) ∧
    (∀ k ∈ (s i.other).delivered, k < (s i).accepted.length) ∧
    (s i.other).emitted.map some =
      (s i.other).delivered.map (fun k => ((s i).accepted[k]?).map Packet.contents) ∧
    (s i.other).emitted.Sublist ((s i).accepted.map Packet.contents) := by
  intro s
  have hl : Lockstep (s i) (s i.other) := lockstep_run cid actions i
  have hp : (s i.other).delivered.Pairwise (· < ·) := by
    rw [hl.delivered]
    exact List.pairwise_lt_range'
  refine ⟨hp, fun k hk => hl.lt_of_mem hk, hl.emitted, ?_⟩
  apply sublist_of_increasing hp
  simpa using hl.emitted

theorem signal_not_canSend {ch : ReliableChannel} {calls : List Packet} :
    Output.canSend ∉ (ch.signal calls).2 := by
  rcases signal_eq ch calls with ⟨_, hr⟩ | ⟨_, _, hr⟩ | ⟨p, ps, _, _, hr⟩ <;> simp [hr]

/-- `canSend` is emitted only for an acknowledgement of the current sequence number. -/
theorem canSend_acked {ch ch' : ReliableChannel} {calls : List Packet} {frame : Packet}
    {outputs : List Output} (hr : ch.readPacket calls frame = some (ch', outputs))
    (hc : .canSend ∈ outputs) :
    ∃ h, ReliablePacketHeader.ofData frame = some h ∧ h.flags ≠ 0 ∧ ch.localSeq = h.seq := by
  cases hd : ReliablePacketHeader.ofData frame with
  | none => simp [readPacket, hd] at hr
  | some h =>
    refine ⟨h, rfl, ?_⟩
    rcases readPacket_cases ch calls hd with
      ⟨hf, hl, _⟩ | ⟨_, _, he⟩ | ⟨_, _, he⟩ | ⟨_, _, he⟩
    · exact ⟨flags_ne_zero hf, hl⟩
    · rw [he] at hr
      cases hr
      simp [signal_not_canSend] at hc
    · rw [he] at hr
      cases hr
      simp at hc
    · rw [he] at hr
      cases hr
      simp at hc

/-- When an acknowledgement clears the slot, the packet in it has been emitted by the peer exactly
when it is neither the first packet ever accepted (its sequence number 0 is never new) nor one
accepted after the 32-bit counter has wrapped. -/
theorem acked_delivered_iff (cid : UInt8) (actions : List Action) (i : Side)
    (calls : List Packet) {x : Sent} {p : Packet} {ch : ReliableChannel} {outputs : List Output} :
    let s := Runs.run System.step (System.new cid) actions
    x ∈ (s i.other).sent → (s i).channel.inFlightPacket = some p →
    (s i).channel.readPacket calls x.frame = some (ch, outputs) → .canSend ∈ outputs →
    ∃ k, (s i).accepted.length = k + 1 ∧ (s i).accepted[k]? = some p ∧
      (k ∈ (s i.other).delivered ↔ 0 < k ∧ k < 2 ^ 32) := by
  intro s hx hslot hr hc
  have hl : Lockstep (s i) (s i.other) := lockstep_run cid actions i
  obtain ⟨h, hh, hf, hseq⟩ := canSend_acked hr hc
  have hlast := hl.slot p hslot
  obtain ⟨k, hk⟩ : ∃ k, (s i).accepted.length = k + 1 := by
    apply Nat.exists_eq_succ_of_ne_zero
    intro hz
    simp [List.length_eq_zero_iff.mp hz] at hlast
  refine ⟨k, hk, ?_, ?_⟩
  · rw [List.getLast?_eq_getElem?, hk] at hlast
    exact hlast
  · rw [hl.delivered, List.mem_range'_1]
    rcases hl.phase with hcount | hwrap
    · -- The acknowledged number is the position, and the receiver has reached it.
      obtain ⟨_, hpeer⟩ := hcount.acks x hx h hh hf
      have hfull := (hcount.full p hslot).1
      have hsmall := hcount.small
      have hloc := hcount.localSeq
      rw [← hseq] at hpeer
      omega
    · have hpeer := hwrap.peerSeq
      have hfull := hwrap.full (by simp [hslot])
      omega

/-- One accepted packet with its transmission, reception and acknowledgement. -/
def exchange (byte : UInt8) (n : ℕ) : List Action :=
  [.writePacket .a ⟨.ofBytes [byte], by simp [Packet.inBounds_ofBytes], by simp⟩,
    .transmitQueue .a (.returned true), .readPacket .b n [], .readPacket .a n []]

/-- The first packet is acknowledged and forgotten although the peer never emitted it. -/
theorem first_acked_undelivered :
    let s := Runs.run System.step (System.new 1) ((exchange 7 0).take 3)
    let t := System.step s (.readPacket .a 0 [])
    (s .a).channel.inFlightPacket = some (.ofBytes [7]) ∧
    (t .a).channel.inFlightPacket = none ∧ (t .a).canSends = 1 ∧
    (s .b).emitted = [] ∧ (s .b).delivered = [] := by
  decide

/-- The second packet, by contrast, is acknowledged after its delivery. -/
theorem second_acked_delivered :
    let s := Runs.run System.step (System.new 1) (exchange 7 0 ++ (exchange 8 1).take 3)
    ∃ k, (s .a).accepted.length = k + 1 ∧ (s .a).accepted[k]? = some (.ofBytes [8]) ∧
      (k ∈ (s .b).delivered ↔ 0 < k ∧ k < 2 ^ 32) :=
  acked_delivered_iff 1 (exchange 7 0 ++ (exchange 8 1).take 3) .a []
    (x := ⟨.ofBytes [1, 1, 0, 0, 0, 1], 0⟩) (p := .ofBytes [8])
    (by decide) (by decide) rfl (by decide)

end Wetnork.Reliable
