import Wetnork.Library.Runs
import Wetnork.Crypto.Rejections

/-! The transport callbacks that a session lends to gnutls. -/
namespace Wetnork.Crypto

open Runs (Along)

section Push

open CryptoSession (PushEnd)

/-- What gnutls expects of a push function: it returns the number of bytes taken, or `-1` (with
`EAGAIN`) if none could be. -/
def PushContract (total : ℕ) (accepted : Bool) (ended : PushEnd) : Prop :=
  ended = .returned (if accepted then (total : ℤ) else -1)

instance (total : ℕ) (accepted : Bool) (ended : PushEnd) :
    Decidable (PushContract total accepted ended) :=
  inferInstanceAs (Decidable (ended = _))

/-- The bytes of all the vectors. -/
def concatenated (iov : List Giovec) : Bytes := (iov.map Giovec.bytes).flatten

/-- Both push functions hand over one packet with all the bytes, whatever becomes of it, and answer
as gnutls expects. -/
structure PushSide (s : CryptoSession) (iov : List Giovec) (accepted : Bool) : Prop where
  pushed : ∀ next, (s.push (concatenated iov) next).1.sent =
    s.sent ++ [Packet.ofBytes (concatenated iov)]
  vecPushed : ∀ next, (s.vecPush iov next).1.sent =
    s.sent ++ [Packet.ofBytes (concatenated iov)]
  push : PushContract (concatenated iov).length accepted
    (s.push (concatenated iov) (.returned accepted)).2
  vecPush : PushContract (concatenated iov).length accepted
    (s.vecPush iov (.returned accepted)).2

theorem gather_iov_iff (iov : List Giovec) :
    Stream.gather (iov.map fun v => Packet.ofBytes v.bytes) =
        some (Packet.ofBytes (concatenated iov)) ↔ (concatenated iov).length < 2 ^ 63 := by
  have hlen : ∀ p ∈ iov.map fun v => Packet.ofBytes v.bytes, p.contents.length = p.length := by
    simp
  simpa [concatenated, List.flatMap_map, Function.comp_def, List.flatMap_def] using
    Stream.gather_iff hlen

theorem push_sent_iff (s : CryptoSession) (data : Bytes) (next : Written) :
    (s.push data next).1.sent = s.sent ++ [Packet.ofBytes data] ↔ data.length < 2 ^ 63 := by
  unfold CryptoSession.push
  split
  · next h => exact iff_of_true rfl h
  · next h => exact iff_of_false (by simp) h

/-- The gather path hands over the packet of the copying path if a buffer for it can be had. -/
theorem vecPush_sent_iff (s : CryptoSession) (iov : List Giovec) (next : Written) :
    (s.vecPush iov next).1.sent = s.sent ++ [Packet.ofBytes (concatenated iov)] ↔
      (concatenated iov).length < 2 ^ 63 := by
  rw [← gather_iov_iff, CryptoSession.vecPush]
  cases Stream.gather (iov.map fun v => Packet.ofBytes v.bytes) <;> simp

theorem vecPush_end (s : CryptoSession) (iov : List Giovec) (next : Written) :
    (s.vecPush iov next).2 =
      if iov.all Option.isNone then CryptoSession.pushEnd next else .deleted := by
  unfold CryptoSession.vecPush
  cases Stream.gather (iov.map fun v => Packet.ofBytes v.bytes) <;> rfl

theorem concatenated_null {iov : List Giovec} (h : iov.all Option.isNone) :
    concatenated iov = [] := by
  simp only [concatenated, List.flatten_eq_nil_iff, List.mem_map]
  rintro _ ⟨v, hv, rfl⟩
  have hn := List.all_eq_true.mp h v hv
  rw [Option.isNone_iff_eq_none.mp hn]
  rfl

/-- A truth value is a byte count only of a single byte. -/
theorem pushContract_iff (total : ℕ) (accepted : Bool) :
    PushContract total accepted (CryptoSession.pushEnd (.returned accepted)) ↔
      accepted = true ∧ total = 1 := by
  cases accepted with
  | false => simp [PushContract, CryptoSession.pushEnd]
  | true =>
    simp only [PushContract, CryptoSession.pushEnd, if_true, true_and, PushEnd.returned.injEq]
    omega

theorem push_contract_iff (s : CryptoSession) (data : Bytes) (accepted : Bool) :
    PushContract data.length accepted (s.push data (.returned accepted)).2 ↔
      accepted = true ∧ data.length = 1 := by
  unfold CryptoSession.push
  split
  · exact pushContract_iff _ _
  · next hn =>
    have hne : data.length ≠ 1 := by omega
    simp [PushContract, hne]

/-- One byte is in a vector that is not a null pointer, and that one is deleted. -/
theorem vecPush_contract (s : CryptoSession) (iov : List Giovec) (accepted : Bool) :
    ¬ PushContract (concatenated iov).length accepted (s.vecPush iov (.returned accepted)).2 := by
  rw [vecPush_end]
  split
  · next hnull => simp [concatenated_null hnull, pushContract_iff]
  · simp [PushContract]

/-- The packets handed over are the same for every fragmentation of as many bytes as can be
allocated, whatever becomes of them. What is returned is what gnutls expects of `push` exactly if a
single byte has been accepted, and of `vec_push` never: the one byte for which the result would be
right has been deleted behind gnutls' back. -/
theorem push_side_iff (s : CryptoSession) (iov : List Giovec) (accepted : Bool) :
    (∀ next, (s.push (concatenated iov) next).1.sent =
      s.sent ++ [Packet.ofBytes (concatenated iov)] ↔ (concatenated iov).length < 2 ^ 63) ∧
    (∀ next, (s.vecPush iov next).1.sent =
      s.sent ++ [Packet.ofBytes (concatenated iov)] ↔ (concatenated iov).length < 2 ^ 63) ∧
    (PushContract (concatenated iov).length accepted
        (s.push (concatenated iov) (.returned accepted)).2 ↔
      accepted = true ∧ (concatenated iov).length = 1) ∧
    ¬ PushContract (concatenated iov).length accepted (s.vecPush iov (.returned accepted)).2 ∧
    ¬ PushSide s iov accepted :=
  ⟨push_sent_iff s _, vecPush_sent_iff s iov, push_contract_iff s _ accepted,
    vecPush_contract s iov accepted, fun h => vecPush_contract s iov accepted h.vecPush⟩

/-- Two bytes in two vectors: `push` says `1` if they are taken, `0` if not, and `vec_push` deletes
the vectors. -/
theorem push_returns_truth_value :
    let iov : List Giovec := [some [1], some [2]]
    (CryptoSession.new.push (concatenated iov) (.returned true)).2 = .returned 1 ∧
    (CryptoSession.new.push (concatenated iov) (.returned false)).2 = .returned 0 ∧
    (CryptoSession.new.vecPush iov (.returned true)).2 = .deleted ∧
    ¬ PushSide .new iov true ∧ ¬ PushSide .new iov false := by
  refine ⟨by decide, by decide, by decide, fun h => ?_, fun h => ?_⟩
  · exact absurd h.push (by decide)
  · exact absurd h.push (by decide)

end Push

section Pull

/-- What `UdpSocket` can receive. -/
def Datagram := {p : Packet // p.InBounds ∧ p.length ≤ 65535}

/-- A `pull` that found a datagram: the size it was called with, its result and the bytes copied. -/
structure Pull where
  size : ℕ
  ret : ℤ
  bytes : Bytes
deriving DecidableEq, Repr

/-- A session with the datagrams stored so far and the pulls that have returned one. -/
structure Feed where
  session : CryptoSession
  arrived : List Packet
  pulled : List Pull

def Feed.new : Feed := ⟨.new, [], []⟩

inductive FeedEvent where
  | readPacket (datagram : Datagram)
  | pull (size : ℕ+)
  | pullTimeout (ms : ℕ)

/-- `readPacket` up to `handlePacket`, and the callbacks. -/
def Feed.step (f : Feed) : FeedEvent → Feed
  | .readPacket datagram =>
    { f with
      session := (Operation.readPacket datagram.1).entered f.session
      arrived := f.arrived ++ [datagram.1] }
  | .pull size =>
    let (session, ret, bytes) := f.session.pull size
    if ret = -1 then { f with session := session }
    else { f with session := session, pulled := f.pulled ++ [⟨size, ret, bytes⟩] }
  | .pullTimeout _ => f

/-- The first bytes of one datagram, as many as there is room for. -/
def Pull.Returns (pull : Pull) (p : Packet) : Prop :=
  pull.ret = (min pull.size p.length : ℕ) ∧ pull.bytes = p.contents.take (min pull.size p.length)

/-- Each pull has returned one of the datagrams, no datagram twice, in their order. -/
def Delivered (arrived : List Packet) (pulled : List Pull) : Prop :=
  ∃ packets : List Packet, packets.Sublist arrived ∧ List.Forall₂ Pull.Returns pulled packets

/-- What gnutls may conclude from a call: `0` would be the end of the stream, and a positive
answer of `pull_timeout` promises a datagram. -/
def Answered (f : Feed) : FeedEvent → Prop
  | .readPacket _ => True
  | .pull size => (f.session.pull size).2.1 = -1 ∨ 0 < (f.session.pull size).2.1
  | .pullTimeout ms =>
    0 < f.session.pullTimeout ms ↔ ∀ size : ℕ+, (f.session.pull size).2.1 ≠ -1

/-- What gnutls needs of the pull side in a run. -/
structure PullSide (events : List FeedEvent) : Prop where
  delivered : Delivered (Runs.run Feed.step .new events).arrived
    (Runs.run Feed.step .new events).pulled
  answered : Along Feed.step Answered .new events

/-- When gnutls calls, the datagram in the slot is not an empty one. -/
def Substantial (f : Feed) : FeedEvent → Prop
  | .readPacket _ => True
  | _ => ∀ p, f.session.currentPacket = some p → p.length ≠ 0

/-- The slot holds the datagram that arrived last, and no pull has returned it. -/
def Feed.Fresh (f : Feed) : Prop :=
  match f.session.currentPacket with
  | none => Delivered f.arrived f.pulled
  | some p => ∃ earlier, f.arrived = earlier ++ [p] ∧ Delivered earlier f.pulled

variable {f : Feed} {s : CryptoSession} {arrived : List Packet} {pulled : List Pull} {p : Packet}

theorem pull_empty (h : s.currentPacket = none) (size : ℕ) : s.pull size = (s, -1, []) := by
  simp [CryptoSession.pull, h]

theorem pull_full (h : s.currentPacket = some p) (size : ℕ) :
    s.pull size = ({ s with currentPacket := none }, ((min size p.length : ℕ) : ℤ),
      p.contents.take (min size p.length)) := by
  have hlen : (if size < p.length then size else p.length) = min size p.length := by
    split <;> omega
  simp only [CryptoSession.pull, h, hlen]

theorem delivered_append (h : Delivered arrived pulled) (p : Packet) :
    Delivered (arrived ++ [p]) pulled := by
  obtain ⟨packets, hsub, hret⟩ := h
  exact ⟨packets, hsub.trans (List.sublist_append_left _ _), hret⟩

theorem delivered_pull (h : Delivered arrived pulled) {pull : Pull} (hp : pull.Returns p) :
    Delivered (arrived ++ [p]) (pulled ++ [pull]) := by
  obtain ⟨packets, hsub, hret⟩ := h
  refine ⟨packets ++ [p], hsub.append (List.Sublist.refl _), ?_⟩
  exact List.rel_append hret (List.Forall₂.cons hp List.Forall₂.nil)

theorem Feed.Fresh.delivered (h : f.Fresh) : Delivered f.arrived f.pulled := by
  rw [Feed.Fresh] at h
  split at h
  · exact h
  · obtain ⟨earlier, he, hd⟩ := h
    rw [he]
    exact delivered_append hd _

theorem step_pull_empty (h : f.session.currentPacket = none) (size : ℕ+) :
    f.step (.pull size) = f := by
  simp [Feed.step, pull_empty h]

theorem step_pull_full (h : f.session.currentPacket = some p) (size : ℕ+) :
    f.step (.pull size) =
      { f with
        session := { f.session with currentPacket := none }
        pulled := f.pulled ++
          [⟨size, (min (size : ℕ) p.length : ℕ), p.contents.take (min size p.length)⟩] } := by
  have hne : ((min (size : ℕ) p.length : ℕ) : ℤ) ≠ -1 := by omega
  simp only [Feed.step, pull_full h, if_neg hne]

/-- No order of storing and pulling mixes or repeats datagrams, whatever their lengths. -/
theorem fresh_step (h : f.Fresh) (event : FeedEvent) : (f.step event).Fresh := by
  cases event with
  | readPacket datagram => exact ⟨f.arrived, rfl, h.delivered⟩
  | pull size =>
    cases hs : f.session.currentPacket with
    | none => rwa [step_pull_empty hs]
    | some p =>
      rw [Feed.Fresh, hs] at h
      obtain ⟨earlier, he, hd⟩ := h
      rw [step_pull_full hs, he]
      exact delivered_pull hd ⟨rfl, rfl⟩
  | pullTimeout ms => exact h

theorem fresh_run (events : List FeedEvent) : (Runs.run Feed.step .new events).Fresh :=
  Runs.invariant (fun _ event h => fresh_step h event) ⟨[], List.Sublist.refl _, .nil⟩

/-- Both callbacks take a stored packet without bytes for something else. -/
theorem answered_iff (f : Feed) (event : FeedEvent) : Answered f event ↔ Substantial f event := by
  cases event with
  | readPacket datagram => exact Iff.rfl
  | pull size =>
    have hpos := size.pos
    cases hs : f.session.currentPacket with
    | none => simp [Answered, Substantial, pull_empty hs, hs]
    | some p =>
      simp only [Answered, Substantial, pull_full hs, hs, Option.some.injEq, forall_eq']
      omega
  | pullTimeout ms =>
    cases hs : f.session.currentPacket with
    | none => simp [Answered, Substantial, pull_empty hs, CryptoSession.pullTimeout, hs]
    | some p =>
      have hne : ∀ size : ℕ+, ((min (size : ℕ) p.length : ℕ) : ℤ) ≠ -1 := by
        intro size
        omega
      simp only [Answered, Substantial, pull_full hs, CryptoSession.pullTimeout, hs,
        Option.some.injEq, forall_eq', ne_eq, hne, not_false_eq_true, implies_true, iff_true]
      omega

/-- In every interleaving each datagram is returned at most once, in order and unmixed. The calls
are answered as gnutls needs it exactly if none of them finds an empty datagram in the slot: they
take it for the end of the stream and for nothing. -/
theorem pull_side_iff (events : List FeedEvent) :
    Delivered (Runs.run Feed.step .new events).arrived (Runs.run Feed.step .new events).pulled ∧
    (PullSide events ↔ Along Feed.step Substantial .new events) := by
  have hd := (fresh_run events).delivered
  have heq : Answered = Substantial := funext₂ fun f event => propext (answered_iff f event)
  exact ⟨hd, fun h => heq ▸ h.answered, fun h => ⟨hd, heq ▸ h⟩⟩

/-- An empty datagram ends the stream for gnutls, although it was never announced. -/
theorem empty_datagram_ends_stream :
    let empty : Datagram := ⟨Packet.ofBytes [], by decide⟩
    let f := Runs.run Feed.step .new [.readPacket empty]
    f.session.pullTimeout 0 = 0 ∧ (f.session.pull 5).2.1 = 0 ∧
      ¬ PullSide [.readPacket empty, .pullTimeout 0] ∧ ¬ PullSide [.readPacket empty, .pull 5] := by
  intro empty f
  refine ⟨rfl, rfl, fun h => ?_, fun h => ?_⟩
  · have hne : ∀ size : ℕ+, (f.session.pull size).2.1 ≠ -1 := by
      intro size
      rw [pull_full (p := Packet.ofBytes []) rfl]
      simp
    exact absurd (h.answered.2.1.mpr hne) (by decide)
  · have hp : (f.session.pull 5).2.1 = -1 ∨ 0 < (f.session.pull 5).2.1 := h.answered.2.1
    rw [pull_full (p := Packet.ofBytes []) rfl] at hp
    simp at hp

end Pull

section Slot

open Outcome

variable {s : CryptoSession} {f : Feed} {p : Packet}

/-- Whether a packet is not in the slot. -/
def missing (p : Packet) (s : CryptoSession) : ℕ := if s.currentPacket = some p then 0 else 1

theorem growing_missing (p : Packet) : Growing (missing p) where
  logged s event := le_rfl
  assigned s state := le_rfl
  transported s call := by
    cases call with
    | pull size =>
      cases hs : s.currentPacket with
      | none => simp [CryptoSession.transport, pull_empty hs]
      | some q =>
        simp only [missing, CryptoSession.transport, pull_full hs]
        split <;> simp
    | pullTimeout ms => exact le_rfl
    | push data accepted =>
      rw [CryptoSession.transport, CryptoSession.push]
      split <;> exact le_rfl
    | vecPush iov accepted =>
      rw [CryptoSession.transport, CryptoSession.vecPush]
      split <;> exact le_rfl

theorem slot_of_missing {t : CryptoSession} (h : ∀ p, missing p s ≤ missing p t) :
    t.currentPacket = none ∨ t.currentPacket = s.currentPacket := by
  cases ht : t.currentPacket with
  | none => exact Or.inl rfl
  | some p =>
    have hp := h p
    by_cases hs : s.currentPacket = some p
    · exact Or.inr hs.symm
    · simp [missing, hs, ht] at hp

/-- Behind its first line, an operation only ever empties the slot, whatever gnutls and the
listeners do. -/
theorem operate_slot (env : Environment) (fuel : ℕ) (s : CryptoSession) (operation : Operation) :
    ((operate env fuel operation).run s).2.currentPacket = none ∨
      ((operate env fuel operation).run s).2.currentPacket =
        (operation.entered s).currentPacket := by
  apply slot_of_missing
  intro p
  have hl := raises_listeners (growing_missing p) env fuel
  cases operation with
  | call c => exact raises_perform (growing_missing p) hl fuel c s
  | readPacket packet => exact raises_handlePacket (growing_missing p) hl fuel _

theorem slot_pull (f : Feed) (size : ℕ+) : (f.step (.pull size)).session.currentPacket = none := by
  cases hs : f.session.currentPacket with
  | none => rw [step_pull_empty hs, hs]
  | some p => rw [step_pull_full hs]

/-- An operation is an interleaving of events as far as the slot is concerned. -/
theorem operate_fed (env : Environment) (fuel : ℕ) (operation : Operation)
    (hf : f.session.currentPacket = s.currentPacket)
    (hd : ∀ packet, operation = .readPacket packet → packet.InBounds ∧ packet.length ≤ 65535) :
    ∃ events, (Runs.run Feed.step f events).session.currentPacket =
        ((operate env fuel operation).run s).2.currentPacket ∧
      ∀ datagram, .readPacket datagram ∈ events → operation = .readPacket datagram.1 := by
  obtain ⟨events, he, hmem⟩ : ∃ events, (Runs.run Feed.step f events).session.currentPacket =
      (operation.entered s).currentPacket ∧
      ∀ datagram, .readPacket datagram ∈ events → operation = .readPacket datagram.1 := by
    cases operation with
    | call c => exact ⟨[], hf, by simp⟩
    | readPacket packet =>
      refine ⟨[.readPacket ⟨packet, hd packet rfl⟩], rfl, ?_⟩
      intro datagram hmem
      cases List.mem_singleton.mp hmem
      rfl
  rcases operate_slot env fuel s operation with h | h
  · refine ⟨events ++ [.pull 1], ?_, fun datagram hd => hmem datagram (by simpa using hd)⟩
    rw [h, Runs.run_append]
    exact slot_pull _ 1
  · exact ⟨events, he.trans h.symm, hmem⟩

/-- The slot of every reachable session is that of an interleaving of the datagrams it was given,
so that what is true of all of these is true of the callbacks of the session. -/
theorem run_fed (env : Environment) (fuel : ℕ) (operations : List Operation)
    (hd : ∀ packet, .readPacket packet ∈ operations → packet.InBounds ∧ packet.length ≤ 65535)
    (hf : f.session.currentPacket = s.currentPacket) :
    ∃ events, (Runs.run Feed.step f events).session.currentPacket =
        (run env fuel s operations).currentPacket ∧
      ∀ datagram, .readPacket datagram ∈ events → .readPacket datagram.1 ∈ operations := by
  induction operations generalizing f s with
  | nil => exact ⟨[], hf, by simp⟩
  | cons operation operations ih =>
    obtain ⟨events, he, hmem⟩ := operate_fed env fuel operation hf
      fun packet hp => hd packet (by simp [hp])
    have hmem' : ∀ datagram, .readPacket datagram ∈ events →
        .readPacket datagram.1 ∈ operation :: operations := by
      intro datagram hin
      rw [hmem datagram hin]
      exact List.mem_cons_self
    rw [run]
    split
    · next t ht =>
      rw [ht] at he
      exact ⟨events, he, hmem'⟩
    · next r t hne ht =>
      rw [ht] at he
      obtain ⟨more, hmore, hin⟩ := ih (fun packet hp => hd packet (by simp [hp])) he
      refine ⟨events ++ more, by rw [Runs.run_append, hmore], fun datagram hdg => ?_⟩
      rcases List.mem_append.mp hdg with hdg | hdg
      · exact hmem' datagram hdg
      · exact List.mem_cons_of_mem _ (hin datagram hdg)

end Slot

end Wetnork.Crypto
