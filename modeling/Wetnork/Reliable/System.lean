import Wetnork.Library.Runs
import Wetnork.Reliable.Channel

/-! Two channels joined by a network that keeps every frame and delivers any of them at any time:
losing, duplicating, delaying and reordering are all choices of what to deliver. -/
namespace Wetnork.Reliable

open ReliableChannel

inductive Side where
  | a
  | b
deriving DecidableEq, Repr

def Side.other : Side → Side
  | .a => .b
  | .b => .a

@[simp] theorem Side.other_other (i : Side) : i.other.other = i := by cases i <;> rfl

@[simp] theorem Side.other_ne (i : Side) : i.other ≠ i := by cases i <;> decide

/-- A frame given to `next.write`. The position is history: which accepted packet was the
sender's latest (the one in its slot, if the slot was full) when the frame was written. -/
structure Sent where
  frame : Packet
  position : ℕ
deriving DecidableEq, Repr

/-- A channel with its history: packets accepted by `writePacket`, frames written, payloads
emitted through `receive` with the positions they were accepted at, and `canSend` signals. -/
structure Endpoint where
  channel : ReliableChannel
  accepted : List Packet
  sent : List Sent
  emitted : List Bytes
  delivered : List ℕ
  canSends : ℕ
deriving DecidableEq, Repr

namespace Endpoint

def new (cid : UInt8) : Endpoint := ⟨ReliableChannel.new cid, [], [], [], [], 0⟩

/-- Records one output; `position` is that of the frame being read. -/
def observe (position : ℕ) (e : Endpoint) : Output → Endpoint
  | .write frame => { e with sent := e.sent ++ [⟨frame, e.accepted.length - 1⟩] }
  | .receive packet =>
    { e with emitted := e.emitted ++ [packet.contents], delivered := e.delivered ++ [position] }
  | .canSend => { e with canSends := e.canSends + 1 }
  | .accepted packet => { e with accepted := e.accepted ++ [packet] }

/-- Takes over the channel after a call and records its outputs; an undefined call does nothing. -/
def after (position : ℕ) (e : Endpoint) : Option (ReliableChannel × List Output) → Endpoint
  | none => e
  | some (ch, outputs) => outputs.foldl (observe position) { e with channel := ch }

theorem channel_observe (position : ℕ) (e : Endpoint) (outputs : List Output) :
    (outputs.foldl (observe position) e).channel = e.channel := by
  induction outputs generalizing e with
  | nil => rfl
  | cons o outputs ih =>
    rw [List.foldl_cons, ih]
    cases o <;> rfl

end Endpoint

abbrev System := Side → Endpoint

def System.new (cid : UInt8) : System := fun _ => Endpoint.new cid

/-- `writePacket`, `transmitQueue` (first transmission or timeout), and the hand-over of the `n`th
frame the peer ever wrote, with what listeners write from inside the signal it may cause. -/
inductive Action where
  | writePacket (i : Side) (packet : Packet.View)
  | transmitQueue (i : Side) (next : WriteResult)
  | readPacket (i : Side) (n : ℕ) (calls : List Packet.View)

/-- The endpoint that acts, after its action. -/
def Action.result (s : System) : Action → Side × Endpoint
  | .writePacket i packet =>
    let (ch, ok) := (s i).channel.writePacket packet.toPacket
    (i, (s i).after 0 (some (ch, if ok then [.accepted packet.toPacket] else [])))
  | .transmitQueue i next => (i, (s i).after 0 ((s i).channel.transmitQueue next))
  | .readPacket i n calls =>
    match (s i.other).sent[n]? with
    | none => (i, s i)
    | some x =>
      let calls := calls.map Packet.View.toPacket
      (i, (s i).after x.position ((s i).channel.readPacket calls x.frame))

def System.step (s : System) (a : Action) : System :=
  Function.update s (a.result s).1 (a.result s).2

/-- One atomic change of an endpoint `e` facing `peer`: the abstract stop-and-wait protocol. -/
inductive Move (peer e : Endpoint) : Endpoint → Prop where
  | accept (p : Packet.View) (hs : e.channel.inFlightPacket = none) :
      Move peer e { e with
        channel := { e.channel with inFlightPacket := some p.toPacket }
        accepted := e.accepted ++ [p.toPacket] }
  | transmit (p : Packet.View) (timeout : Bool) (hs : e.channel.inFlightPacket = some p.toPacket) :
      Move peer e { e with
        channel := { e.channel with timeout := timeout }
        sent := e.sent ++ [⟨e.channel.dataFrame p.contents, e.accepted.length - 1⟩] }
  | acked (x : Sent) (h : ReliablePacketHeader) (hx : x ∈ peer.sent)
      (hh : ReliablePacketHeader.ofData x.frame = some h)
      (hf : h.flags &&& ReliablePacketHeader.ACK ≠ 0) (hl : e.channel.localSeq = h.seq) :
      Move peer e { e with
        channel := { e.channel with
          localSeq := e.channel.localSeq + 1, inFlightPacket := none, timeout := false }
        canSends := e.canSends + 1 }
  | receive (x : Sent) (h : ReliablePacketHeader) (hx : x ∈ peer.sent)
      (hh : ReliablePacketHeader.ofData x.frame = some h)
      (hf : h.flags = 0) (hn : e.channel.peerSeq < h.seq) :
      Move peer e { e with
        channel := { e.channel with peerSeq := h.seq }
        emitted := e.emitted ++ [(x.frame.skip ReliablePacketHeader.size).contents]
        delivered := e.delivered ++ [x.position] }
  | acknowledge (x : Sent) (h : ReliablePacketHeader) (hx : x ∈ peer.sent)
      (hh : ReliablePacketHeader.ofData x.frame = some h)
      (hf : h.flags = 0) (hs : h.seq ≤ e.channel.peerSeq) :
      Move peer e { e with
        sent := e.sent ++ [⟨e.channel.ackFrame h.seq, e.accepted.length - 1⟩] }

/-- The slot only ever holds packets that can be framed. -/
def Endpoint.SlotView (e : Endpoint) : Prop :=
  ∀ p, e.channel.inFlightPacket = some p → ∃ v : Packet.View, v.toPacket = p

theorem slotView_move {peer e t : Endpoint} (h : Move peer e t) (hs : e.SlotView) :
    t.SlotView := by
  cases h with
  | accept p hp =>
    intro q hq
    exact ⟨p, by simpa using hq⟩
  | transmit p timeout hp => exact hs
  | acked x h hx hh hf hl =>
    intro q hq
    simp at hq
  | receive x h hx hh hf hn => exact hs
  | acknowledge x h hx hh hf hn => exact hs

/-- The moves of one action. -/
abbrev Moves (peer : Endpoint) := Relation.ReflTransGen (Move peer)

/-- Listeners can at most get one packet accepted, into an empty slot. -/
theorem signal_moves (peer e : Endpoint) (position : ℕ) (calls : List Packet.View) :
    let r := e.channel.signal (calls.map Packet.View.toPacket)
    Moves peer e (r.2.foldl (Endpoint.observe position) { e with channel := r.1 }) := by
  rcases signal_eq e.channel (calls.map Packet.View.toPacket) with
    ⟨_, hr⟩ | ⟨_, _, hr⟩ | ⟨p, ps, hs, hc, hr⟩
  · simp only [hr]
    exact .refl
  · simp only [hr]
    exact .refl
  · obtain ⟨v, vs, rfl, rfl, -⟩ := List.map_eq_cons_iff.mp hc
    simp only [hr]
    exact .single (.accept v hs)

theorem writePacket_moves (s : System) (i : Side) (packet : Packet.View) :
    Moves (s i.other) (s i) (Action.result s (.writePacket i packet)).2 := by
  cases hs : (s i).channel.inFlightPacket with
  | some p =>
    simp only [Action.result, writePacket, hs]
    exact .refl
  | none =>
    simp only [Action.result, writePacket, hs]
    exact .single (.accept packet hs)

theorem transmitQueue_moves {s : System} {i : Side} (hv : (s i).SlotView) (next : WriteResult) :
    Moves (s i.other) (s i) (Action.result s (.transmitQueue i next)).2 := by
  cases hs : (s i).channel.inFlightPacket with
  | none =>
    simp only [Action.result, transmitQueue, hs]
    exact .refl
  | some p =>
    obtain ⟨v, rfl⟩ := hv p hs
    simp only [Action.result, transmitQueue_eq hs next]
    exact .single (.transmit v _ hs)

/-- Reading a frame: at most one protocol move, then the listeners, then the acknowledgement. -/
theorem readPacket_moves (s : System) (i : Side) (n : ℕ) (calls : List Packet.View) :
    Moves (s i.other) (s i) (Action.result s (.readPacket i n calls)).2 := by
  simp only [Action.result]
  cases hn : (s i.other).sent[n]? with
  | none => exact .refl
  | some x =>
    have hx : x ∈ (s i.other).sent := List.mem_of_getElem? hn
    dsimp only
    cases hd : ReliablePacketHeader.ofData x.frame with
    | none =>
      simp only [readPacket, hd]
      exact .refl
    | some h =>
      rcases readPacket_cases (s i).channel (calls.map Packet.View.toPacket) hd with
        ⟨hf, hl, hr⟩ | ⟨hf, hp, hr⟩ | ⟨hf, hp, hr⟩ | ⟨_, _, hr⟩
      · rw [hr]
        exact .head (.acked x h hx hd hf hl) (signal_moves _ _ _ calls)
      · rw [hr]
        refine .head (.receive x h hx hd hf hp) ?_
        refine (signal_moves _ _ x.position calls).trans ?_
        obtain ⟨hq, hc⟩ := signal_keeps { (s i).channel with peerSeq := h.seq }
          (calls.map Packet.View.toPacket)
        simp only [Endpoint.after, List.cons_append, List.foldl_cons, List.foldl_append,
          List.foldl_nil, Endpoint.observe]
        -- The acknowledgement is written by the channel as the listeners leave it.
        generalize hE : List.foldl _ _ _ = E
        have hch := (congrArg Endpoint.channel hE).symm.trans (Endpoint.channel_observe _ _ _)
        have ha : (s i).channel.ackFrame h.seq = E.channel.ackFrame h.seq := by
          simp [ackFrame, hch, hc]
        rw [ha]
        refine .single (.acknowledge x h hx hd hf ?_)
        rw [hch, hq]
        exact UInt32.le_refl _
      · rw [hr]
        exact .single (.acknowledge x h hx hd hf (by simpa using hp))
      · rw [hr]
        exact .refl

/-- Every action is a sequence of moves of one endpoint against an unchanged peer. -/
theorem action_moves {s : System} (hv : ∀ i, (s i).SlotView) (a : Action) :
    let r := a.result s
    Moves (s r.1.other) (s r.1) r.2 := by
  cases a with
  | writePacket i packet => exact writePacket_moves s i packet
  | transmitQueue i next => exact transmitQueue_moves (hv i) next
  | readPacket i n calls =>
    have hside : (Action.result s (.readPacket i n calls)).1 = i := by
      simp only [Action.result]
      split <;> rfl
    dsimp only
    rw [hside]
    exact readPacket_moves s i n calls

/-- An invariant of endpoint pairs that moves preserve on either side holds throughout a run. -/
theorem run_invariant {I : Endpoint → Endpoint → Prop} (cid : UInt8)
    (hi : I (.new cid) (.new cid))
    (hl : ∀ {e t peer}, Move peer e t → e.SlotView → I e peer → I peer e → I t peer)
    (hr : ∀ {e t peer}, Move peer e t → e.SlotView → I peer e → I e peer → I peer t)
    (actions : List Action) (i : Side) :
    let s := Runs.run System.step (System.new cid) actions
    I (s i) (s i.other) := by
  have key : ∀ {peer e t : Endpoint}, Moves peer e t →
      e.SlotView ∧ I e peer ∧ I peer e → t.SlotView ∧ I t peer ∧ I peer t := by
    intro peer e t h hs
    induction h with
    | refl => exact hs
    | tail _ hm ih =>
      exact ⟨slotView_move hm ih.1, hl hm ih.1 ih.2.1 ih.2.2, hr hm ih.1 ih.2.2 ih.2.1⟩
  have hinv : ∀ j, (Runs.run System.step (System.new cid) actions j).SlotView ∧
      I (Runs.run System.step (System.new cid) actions j)
        (Runs.run System.step (System.new cid) actions j.other) := by
    apply Runs.invariant (I := fun s : System => ∀ j, (s j).SlotView ∧ I (s j) (s j.other))
    · intro s a hs
      obtain ⟨hv, hp, hq⟩ := key (action_moves (fun j => (hs j).1) a)
        ⟨(hs _).1, (hs _).2, by simpa using (hs (a.result s).1.other).2⟩
      intro j
      by_cases hj : j = (a.result s).1
      · subst hj
        simpa [System.step] using ⟨hv, hp⟩
      · have ho : j.other = (a.result s).1 := by
          cases j <;> cases hk : (a.result s).1 <;> simp_all [Side.other]
        have hj' : j = (a.result s).1.other := by rw [← ho, Side.other_other]
        rw [System.step, Function.update_of_ne hj, ho, Function.update_self, hj']
        exact ⟨(hs _).1, hq⟩
    · intro j
      refine ⟨?_, hi⟩
      intro p hp
      cases hp
  exact (hinv i).2

end Wetnork.Reliable
