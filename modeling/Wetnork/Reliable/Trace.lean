import Wetnork.Library.Simulation
import Wetnork.Reliable.Delivery

/-! One direction of a reliable channel as an automaton: a line that holds one packet at a time. -/
namespace Wetnork.Reliable

open ReliableChannel Simulation

/-- What the two users of one direction see of it. -/
inductive LineEvent where
  | accept (payload : Bytes)
  | deliver (payload : Bytes)
  | acked
deriving DecidableEq, Repr

/-- The abstract line. `count` packets have been acknowledged so far; a line whose counter is used
up is `worn`. -/
inductive Line where
  | idle (count : ℕ)
  | sending (count : ℕ) (payload : Bytes)
  | received (count : ℕ) (payload : Bytes)
  | worn
deriving DecidableEq, Repr

namespace Line

/-- The first packet is acknowledged without having been delivered. Every other one is delivered,
once and unaltered, before it is acknowledged, until `2^32` have been. A worn line still accepts
and acknowledges, in any order, and delivers nothing. -/
def next : Line → LineEvent → Option Line
  | .idle count, .accept payload => some (.sending count payload)
  | .sending count payload, .deliver other =>
    if 0 < count ∧ other = payload then some (.received count payload) else none
  | .sending count _, .acked => if count = 0 then some (.idle 1) else none
  | .received count _, .acked => if count + 1 < 2 ^ 32 then some (.idle (count + 1)) else some .worn
  | .worn, .accept _ => some .worn
  | .worn, .acked => some .worn
  | _, _ => none

/-- Where a sender and a receiver have their line. -/
def of (S R : Endpoint) : Line :=
  if 2 ^ 32 ≤ S.canSends then
    .worn
  else
    match S.channel.inFlightPacket with
    | none => .idle S.canSends
    | some packet =>
      if 0 < S.canSends ∧ R.channel.peerSeq.toNat = S.canSends then
        .received S.canSends packet.contents
      else
        .sending S.canSends packet.contents

end Line

/-- What an output of the sender means for the line. -/
def Output.sending? : Output → Option LineEvent
  | .accepted packet => some (.accept packet.contents)
  | .canSend => some .acked
  | _ => none

/-- What an output of the receiver means for the line. -/
def Output.receiving? : Output → Option LineEvent
  | .receive packet => some (.deliver packet.contents)
  | _ => none

def Action.side : Action → Side
  | .writePacket i _ => i
  | .transmitQueue i _ => i
  | .readPacket i _ _ => i

/-- The outputs of the call an action makes. -/
def Action.outputs (s : System) : Action → List Output
  | .writePacket i packet =>
    if ((s i).channel.writePacket packet.toPacket).2 then [.accepted packet.toPacket] else []
  | .transmitQueue i next => (((s i).channel.transmitQueue next).map Prod.snd).getD []
  | .readPacket i n calls =>
    match (s i.other).sent[n]? with
    | none => []
    | some x =>
      let calls := calls.map Packet.View.toPacket
      (((s i).channel.readPacket calls x.frame).map Prod.snd).getD []

/-- What an action shows on the line that side `i` sends on. -/
def Action.shows (i : Side) (s : System) (a : Action) : List LineEvent :=
  (a.outputs s).filterMap (if a.side = i then Output.sending? else Output.receiving?)

/-- Packets leave the slot only through `canSend`. -/
def Endpoint.Drained (e : Endpoint) : Prop :=
  e.accepted.length ≤ e.canSends + if e.channel.inFlightPacket.isSome then 1 else 0

variable {S R e peer t : Endpoint}

theorem drained_move (h : Move peer e t) (hd : e.Drained) : t.Drained := by
  unfold Endpoint.Drained at hd ⊢
  cases h with
  | accept p hs =>
    simp only [hs, Option.isSome_none, Bool.false_eq_true, if_false] at hd
    simp only [List.length_append, List.length_singleton, Option.isSome_some, if_true]
    omega
  | transmit p timeout hs => exact hd
  | acked x h hx hh hf hl =>
    simp only [Option.isSome_none, Bool.false_eq_true, if_false]
    split at hd <;> omega
  | receive x h hx hh hf hn => exact hd
  | acknowledge x h hx hh hf hs => exact hd

/-- The phases of the invariant are told apart by the number of signals. -/
theorem counting_of_small (hl : Lockstep S R) (hd : S.Drained) (hs : S.canSends < 2 ^ 32) :
    Counting S R := by
  rcases hl.phase with hc | hw
  · exact hc
  · have ha := hw.accepted
    have hfull := hw.full
    unfold Endpoint.Drained at hd
    cases hp : S.channel.inFlightPacket with
    | none =>
      simp [hp] at hd
      omega
    | some p =>
      have := hfull (by simp [hp])
      simp [hp] at hd
      omega

namespace Line

theorem of_worn (h : 2 ^ 32 ≤ S.canSends) : of S R = .worn := if_pos h

theorem of_idle (h : S.canSends < 2 ^ 32) (hs : S.channel.inFlightPacket = none) :
    of S R = .idle S.canSends := by
  rw [of, if_neg (Nat.not_le.mpr h), hs]

theorem of_full (h : S.canSends < 2 ^ 32) {p : Packet} (hs : S.channel.inFlightPacket = some p) :
    of S R =
      if 0 < S.canSends ∧ R.channel.peerSeq.toNat = S.canSends then
        .received S.canSends p.contents
      else
        .sending S.canSends p.contents := by
  rw [of, if_neg (Nat.not_le.mpr h), hs]

/-- The line does not see anything else of its two ends. -/
theorem of_congr {S' R' : Endpoint} (hc : S'.canSends = S.canSends)
    (hs : S'.channel.inFlightPacket = S.channel.inFlightPacket)
    (hp : R'.channel.peerSeq = R.channel.peerSeq) : of S' R' = of S R := by
  simp only [of, hc, hs, hp]

/-- An empty slot takes a packet, and the receiver cannot have it yet. -/
theorem next_accept (hl : Lockstep S R) (hd : S.Drained) {p : Packet} {T : Endpoint}
    (hs : S.channel.inFlightPacket = none) (hc : T.canSends = S.canSends)
    (ht : T.channel.inFlightPacket = some p) :
    (of S R).next (.accept p.contents) = some (of T R) := by
  by_cases hw : 2 ^ 32 ≤ S.canSends
  · rw [of_worn hw, of_worn (by rwa [hc]), next]
  · have hcount := counting_of_small hl hd (by omega)
    have he := hcount.empty hs
    have hnew : ¬ (0 < T.canSends ∧ R.channel.peerSeq.toNat = T.canSends) := by
      rw [hc]
      rcases hl.seen with h | h <;> omega
    rw [of_idle (by omega) hs, of_full (by omega) ht, if_neg hnew, next, hc]

/-- What clears the slot was acknowledged by a receiver that has seen its number. -/
theorem next_acked (hl : Lockstep S R) (hd : S.Drained) {x : Sent} {h : ReliablePacketHeader}
    {T : Endpoint} (hx : x ∈ R.sent) (hh : ReliablePacketHeader.ofData x.frame = some h)
    (hf : h.flags ≠ 0) (hseq : S.channel.localSeq = h.seq) (hc : T.canSends = S.canSends + 1)
    (ht : T.channel.inFlightPacket = none) : (of S R).next .acked = some (of T R) := by
  by_cases hw : 2 ^ 32 ≤ S.canSends
  · rw [of_worn hw, of_worn (by omega), next]
  · have hcount := counting_of_small hl hd (by omega)
    obtain ⟨hacc, hpeer⟩ := hcount.acks x hx h hh hf
    have hloc := hcount.localSeq
    rw [← hseq] at hacc hpeer
    obtain ⟨p, hp⟩ : ∃ p, S.channel.inFlightPacket = some p := by
      rw [← Option.ne_none_iff_exists']
      intro hn
      have := hcount.empty hn
      omega
    have hfull := (hcount.full p hp).1
    have hle : R.channel.peerSeq.toNat ≤ S.canSends := by
      rcases hl.seen with hz | hlt <;> omega
    rw [of_full (by omega) hp]
    by_cases hz : S.canSends = 0
    · rw [if_neg (by omega), next, if_pos hz, of_idle (by omega) ht, hc, hz]
    · rw [if_pos (by omega), next]
      by_cases hlast : S.canSends + 1 < 2 ^ 32
      · rw [if_pos hlast, of_idle (by omega) ht, hc]
      · rw [if_neg hlast, of_worn (by omega)]

/-- What is new to the receiver is the packet in the sender's slot. -/
theorem next_deliver (hl : Lockstep S R) {x : Sent} {h : ReliablePacketHeader}
    {T : Endpoint} (hx : x ∈ S.sent) (hh : ReliablePacketHeader.ofData x.frame = some h)
    (hf : h.flags = 0) (hnew : R.channel.peerSeq < h.seq) (ht : T.channel.peerSeq = h.seq) :
    (of S R).next (.deliver (x.frame.skip ReliablePacketHeader.size).contents) =
      some (of S T) := by
  rw [UInt32.lt_iff_toNat_lt] at hnew
  rcases hl.phase with hc | hw
  · have hsmall := hc.small
    obtain ⟨hseq, q, hq, hcon⟩ := hc.data x hx h hh hf
    have hlt := hc.seq_lt hx hh hf
    have hle := hc.accepted_le
    have hlead := hc.lead
    obtain ⟨p, hp⟩ : ∃ p, S.channel.inFlightPacket = some p := by
      rw [← Option.ne_none_iff_exists']
      intro hn
      have := hc.empty hn
      omega
    obtain ⟨hlen, hget⟩ := hc.full p hp
    have hpos : x.position = S.canSends := by omega
    obtain rfl : q = p := Option.some.inj (hq.symm.trans (hpos ▸ hget))
    rw [of_full hsmall hp, of_full hsmall hp, if_neg (by omega), ht, if_pos (by omega), next,
      if_pos ⟨by omega, hcon⟩]
  · have hmax := hw.peerSeq
    have := h.seq.toNat_lt
    omega

end Line

/-- Listeners show nothing but the packet they get accepted. -/
theorem signal_shows {T : Endpoint} (hl : Lockstep S R) (hd : S.Drained) (calls : List Packet)
    (hc : T.canSends = S.canSends)
    (ht : T.channel.inFlightPacket = (S.channel.signal calls).1.inFlightPacket) :
    accepts Line.next (Line.of S R) ((S.channel.signal calls).2.filterMap Output.sending?) =
        some (Line.of T R) ∧
      (S.channel.signal calls).2.filterMap Output.receiving? = [] := by
  rcases signal_eq S.channel calls with ⟨_, hr⟩ | ⟨_, _, hr⟩ | ⟨p, ps, hs, _, hr⟩
  · rw [hr] at ht ⊢
    exact ⟨congrArg some (Line.of_congr hc ht rfl).symm, rfl⟩
  · rw [hr] at ht ⊢
    exact ⟨congrArg some (Line.of_congr hc ht rfl).symm, rfl⟩
  · rw [hr] at ht ⊢
    refine ⟨?_, rfl⟩
    exact (accepts_cons (Line.next_accept hl hd hs hc ht)).trans (accepts_nil _)

/-- The line a call is made on, seen from both of its ends. -/
structure Follows (peer e : Endpoint) (outputs : List Output) (t : Endpoint) : Prop where
  sending : accepts Line.next (Line.of e peer) (outputs.filterMap Output.sending?) =
    some (Line.of t peer)
  receiving : accepts Line.next (Line.of peer e) (outputs.filterMap Output.receiving?) =
    some (Line.of peer t)

theorem follows_refl (peer e : Endpoint) : Follows peer e [] e := ⟨rfl, rfl⟩

theorem canSends_observe (position : ℕ) (e : Endpoint) (outputs : List Output) :
    (outputs.foldl (Endpoint.observe position) e).canSends =
      e.canSends + outputs.count .canSend := by
  induction outputs generalizing e with
  | nil => rfl
  | cons o outputs ih =>
    rw [List.foldl_cons, ih]
    cases o with
    | canSend =>
      simp only [List.count_cons_self, Endpoint.observe]
      omega
    | _ => simp [Endpoint.observe]

/-- What a call leaves behind, as far as the line sees it. -/
theorem line_after (position : ℕ) (e : Endpoint) (ch : ReliableChannel) (outputs : List Output) :
    let t := e.after position (some (ch, outputs))
    t.channel = ch ∧ t.canSends = e.canSends + outputs.count .canSend :=
  ⟨Endpoint.channel_observe _ _ _, canSends_observe _ _ _⟩

theorem count_signal (ch : ReliableChannel) (calls : List Packet) :
    (ch.signal calls).2.count .canSend = 0 := List.count_eq_zero.mpr signal_not_canSend

/-- An acknowledgement is an event of the line that `e` sends on. -/
theorem acked_follows (he : Lockstep e peer) (hd : e.Drained) {x : Sent}
    {h : ReliablePacketHeader} (hx : x ∈ peer.sent)
    (hh : ReliablePacketHeader.ofData x.frame = some h)
    (hf : h.flags &&& ReliablePacketHeader.ACK ≠ 0) (hl : e.channel.localSeq = h.seq)
    (calls : List Packet) :
    let q := { e.channel with
      localSeq := e.channel.localSeq + 1, inFlightPacket := none, timeout := false }.signal calls
    Follows peer e (.canSend :: q.2) (e.after x.position (some (q.1, .canSend :: q.2))) := by
  intro q
  have hm := Move.acked x h hx hh hf hl
  have hack := Line.next_acked he hd hx hh (flags_ne_zero hf) hl
    (T := { e with
      channel := { e.channel with
        localSeq := e.channel.localSeq + 1, inFlightPacket := none, timeout := false }
      canSends := e.canSends + 1 }) rfl rfl
  obtain ⟨hch, hcs⟩ := line_after x.position e q.1 (.canSend :: q.2)
  rw [List.count_cons_self, count_signal] at hcs
  obtain ⟨hsend, hrecv⟩ := signal_shows (lockstep_sender hm he) (drained_move hm hd) calls hcs
    (congrArg _ hch)
  refine ⟨(accepts_cons hack).trans hsend, ?_⟩
  rw [List.filterMap_cons_none rfl, hrecv, accepts_nil]
  refine congrArg some (Line.of_congr rfl rfl ?_).symm
  rw [hch]
  exact (signal_keeps _ calls).1

/-- A delivery is an event of the line that `peer` sends on. -/
theorem receive_follows (he : Lockstep e peer) (hp : Lockstep peer e) (hd : e.Drained) {x : Sent}
    {h : ReliablePacketHeader} (hx : x ∈ peer.sent)
    (hh : ReliablePacketHeader.ofData x.frame = some h) (hf : h.flags = 0)
    (hn : e.channel.peerSeq < h.seq) (calls : List Packet) :
    let q := { e.channel with peerSeq := h.seq }.signal calls
    let outputs := Output.receive (x.frame.skip ReliablePacketHeader.size) :: q.2 ++
      [Output.write (e.channel.ackFrame h.seq)]
    Follows peer e outputs (e.after x.position (some (q.1, outputs))) := by
  intro q outputs
  have hm := Move.receive x h hx hh hf hn
  obtain ⟨hch, hcs⟩ := line_after x.position e q.1 outputs
  have hzero : outputs.count .canSend = 0 := by
    simp [outputs, q, count_signal]
  rw [hzero] at hcs
  obtain ⟨hsend, hrecv⟩ := signal_shows (lockstep_sender hm he) (drained_move hm hd) calls hcs
    (congrArg _ hch)
  have hdel := Line.next_deliver hp hx hh hf hn
    (T := e.after x.position (some (q.1, outputs))) (by rw [hch]; exact (signal_keeps _ calls).1)
  constructor
  · have hs : outputs.filterMap Output.sending? = q.2.filterMap Output.sending? := by
      simp [outputs, List.filterMap_cons, Output.sending?]
    rw [hs, ← hsend]
    exact congrArg (accepts Line.next · _) (Line.of_congr rfl rfl rfl).symm
  · have hr : outputs.filterMap Output.receiving? =
        [.deliver (x.frame.skip ReliablePacketHeader.size).contents] := by
      have hnone : q.2.filterMap Output.receiving? = [] := hrecv
      simp [outputs, List.filterMap_cons, Output.receiving?, hnone]
    rw [hr]
    exact (accepts_cons hdel).trans (accepts_nil _)

/-- Reading a frame is at most one event of one of the two lines, and then the listeners'. -/
theorem readPacket_follows (he : Lockstep e peer) (hp : Lockstep peer e) (hd : e.Drained)
    {x : Sent} (hx : x ∈ peer.sent) (calls : List Packet) :
    let r := e.channel.readPacket calls x.frame
    Follows peer e ((r.map Prod.snd).getD []) (e.after x.position r) := by
  cases hh : ReliablePacketHeader.ofData x.frame with
  | none =>
    have hr : e.channel.readPacket calls x.frame = none := by simp [readPacket, hh]
    simp only [hr]
    exact follows_refl peer e
  | some h =>
    rcases readPacket_cases e.channel calls hh with
      ⟨hf, hl, hr⟩ | ⟨hf, hn, hr⟩ | ⟨_, _, hr⟩ | ⟨_, _, hr⟩
    · simp only [hr]
      exact acked_follows he hd hx hh hf hl calls
    · simp only [hr]
      exact receive_follows he hp hd hx hh hf hn calls
    · simp only [hr]
      exact ⟨rfl, rfl⟩
    · simp only [hr]
      exact ⟨rfl, rfl⟩

theorem writePacket_follows (he : Lockstep e peer) (hd : e.Drained) (packet : Packet) :
    let r := e.channel.writePacket packet
    let outputs := if r.2 then [Output.accepted packet] else []
    Follows peer e outputs (e.after 0 (some (r.1, outputs))) := by
  cases hs : e.channel.inFlightPacket with
  | some p =>
    simp only [writePacket, hs]
    exact ⟨rfl, rfl⟩
  | none =>
    simp only [writePacket, hs, if_true]
    refine ⟨?_, congrArg some (Line.of_congr rfl rfl rfl).symm⟩
    have hnext := Line.next_accept he hd hs (p := packet) (T := e.after 0
      (some ({ e.channel with inFlightPacket := some packet }, [.accepted packet]))) rfl rfl
    exact (accepts_cons hnext).trans (accepts_nil _)

theorem transmitQueue_follows (hv : e.SlotView) (next : WriteResult) :
    let r := e.channel.transmitQueue next
    Follows peer e ((r.map Prod.snd).getD []) (e.after 0 r) := by
  cases hs : e.channel.inFlightPacket with
  | none =>
    simp only [transmitQueue, hs]
    exact follows_refl peer e
  | some p =>
    obtain ⟨v, rfl⟩ := hv p hs
    simp only [transmitQueue_eq hs next]
    exact ⟨congrArg some (Line.of_congr rfl rfl rfl).symm,
      congrArg some (Line.of_congr rfl rfl rfl).symm⟩

/-- What both ends of both lines keep. -/
structure System.Sound (s : System) : Prop where
  lockstep : ∀ i, Lockstep (s i) (s i.other)
  drained : ∀ i, (s i).Drained
  slot : ∀ i, (s i).SlotView

theorem action_follows {s : System} (hs : s.Sound) (a : Action) :
    (a.result s).1 = a.side ∧
      Follows (s a.side.other) (s a.side) (a.outputs s) (a.result s).2 := by
  cases a with
  | writePacket i packet =>
    exact ⟨rfl, writePacket_follows (hs.lockstep i) (hs.drained i) packet.toPacket⟩
  | transmitQueue i next => exact ⟨rfl, transmitQueue_follows (hs.slot i) next⟩
  | readPacket i n calls =>
    have hback : Lockstep (s i.other) (s i) := by simpa using hs.lockstep i.other
    simp only [Action.result, Action.outputs, Action.side]
    cases hn : (s i.other).sent[n]? with
    | none => exact ⟨rfl, follows_refl _ _⟩
    | some x =>
      exact ⟨rfl, readPacket_follows (hs.lockstep i) hback (hs.drained i)
        (List.mem_of_getElem? hn) _⟩

theorem sound_new (cid : UInt8) : (System.new cid).Sound where
  lockstep _ := lockstep_new cid
  drained _ := Nat.zero_le _
  slot _ p hp := by cases hp

theorem sound_moves {e peer t : Endpoint} (h : Moves peer e t) (he : Lockstep e peer)
    (hp : Lockstep peer e) (hd : e.Drained) (hv : e.SlotView) :
    Lockstep t peer ∧ Lockstep peer t ∧ t.Drained ∧ t.SlotView := by
  induction h with
  | refl => exact ⟨he, hp, hd, hv⟩
  | tail _ hm ih =>
    obtain ⟨he, hp, hd, hv⟩ := ih
    exact ⟨lockstep_sender hm he, lockstep_receiver hm hp, drained_move hm hd,
      slotView_move hm hv⟩

theorem Side.eq_or_other (i j : Side) : j = i ∨ j = i.other := by
  cases i <;> cases j <;> simp [Side.other]

theorem sound_step {s : System} (hs : s.Sound) (a : Action) : (System.step s a).Sound := by
  obtain ⟨hside, -⟩ := action_follows hs a
  have hm := action_moves hs.slot a
  simp only [hside] at hm
  obtain ⟨he, hp, hd, hv⟩ := sound_moves hm (hs.lockstep _)
    (by simpa using hs.lockstep a.side.other) (hs.drained _) (hs.slot _)
  have hself : System.step s a a.side = (a.result s).2 := by simp [System.step, hside]
  have hother : System.step s a a.side.other = s a.side.other := by
    simp [System.step, hside]
  constructor
  · intro i
    rcases Side.eq_or_other a.side i with rfl | rfl
    · rwa [hself, hother]
    · rwa [Side.other_other, hself, hother]
  · intro i
    rcases Side.eq_or_other a.side i with rfl | rfl
    · rwa [hself]
    · rw [hother]
      exact hs.drained _
  · intro i
    rcases Side.eq_or_other a.side i with rfl | rfl
    · rwa [hself]
    · rw [hother]
      exact hs.slot _

/-- One action moves each line by what it shows on it. -/
theorem line_step {s : System} (hs : s.Sound) (a : Action) (i : Side) :
    accepts Line.next (Line.of (s i) (s i.other)) (a.shows i s) =
      some (Line.of (System.step s a i) (System.step s a i.other)) := by
  obtain ⟨hside, hf⟩ := action_follows hs a
  have hself : System.step s a a.side = (a.result s).2 := by simp [System.step, hside]
  have hother : System.step s a a.side.other = s a.side.other := by
    simp [System.step, hside]
  rcases Side.eq_or_other a.side i with rfl | rfl
  · rw [hself, hother, Action.shows, if_pos rfl]
    exact hf.sending
  · rw [Side.other_other, hself, hother, Action.shows, if_neg (Side.other_ne _).symm]
    exact hf.receiving

theorem localSeq_move (h : Move peer e t)
    (he : e.channel.localSeq.toNat = e.canSends % 2 ^ 32) :
    t.channel.localSeq.toNat = t.canSends % 2 ^ 32 := by
  cases h with
  | acked x h hx hh hf hl =>
    have hone : (1 : UInt32).toNat = 1 := rfl
    simp only [UInt32.toNat_add, hone, he]
    omega
  | _ => exact he

/-- The send counter counts the signals, modulo `2^32`. -/
theorem localSeq_run (cid : UInt8) (actions : List Action) (i : Side) :
    (Runs.run System.step (System.new cid) actions i).channel.localSeq.toNat =
      (Runs.run System.step (System.new cid) actions i).canSends % 2 ^ 32 := by
  apply run_invariant (I := fun e _ => e.channel.localSeq.toNat = e.canSends % 2 ^ 32)
  · rfl
  · intro e t peer hm _ he _
    exact localSeq_move hm he
  · intro e t peer _ _ he _
    exact he

/-- Whatever the network loses, repeats or reorders, and whatever listeners write from inside the
signals: all that happens on one direction, in the order in which it happens, is a word of the
line. Where on the line it is can be told from the slot, the receiver's counter and the number of
signals, which is the sender's counter as long as that has not wrapped. -/
theorem direction_refines_line (cid : UInt8) (actions : List Action) (i : Side) :
    let s := Runs.run System.step (System.new cid) actions
    accepts Line.next (.idle 0) (trace System.step (Action.shows i) (System.new cid) actions) =
        some (Line.of (s i) (s i.other)) ∧
      (s i).channel.localSeq.toNat = (s i).canSends % 2 ^ 32 :=
  ⟨accepts_trace (fun s : System => Line.of (s i) (s i.other)) (fun _ a hs => sound_step hs a)
    (fun _ a hs => line_step hs a i) (sound_new cid) actions, localSeq_run cid actions i⟩

end Wetnork.Reliable
