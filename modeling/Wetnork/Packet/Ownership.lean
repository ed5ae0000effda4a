import Wetnork.Library.Scopes

/-! Who deletes the memory of packets: the functions that make packets, with whatever the
functions that they call do meanwhile. -/
namespace Wetnork.Packet.Ownership

open Shared (Heap Instr State)

/-- How far `UdpSocket::onPacketArrived` gets. -/
inductive Arrival where
  | failed
  | unknown
  | propagated
deriving DecidableEq, Repr

/-- The functions that make packets, up to the point where they hand one on. -/
inductive Call where
  | write (header : Bool) (parts : List ℕ)
  | watcherEvent
  | onPacketArrived (arrival : Arrival)
  | push
  | iov (count : ℕ)
  | vecPush (blocks : List ℕ)
  | handleData (received : Bool)
deriving DecidableEq, Repr

/-- What the functions do with memory; `n` is the next block. Their local variables end with
them, the block of a header included. -/
def Call.instrs (n : ℕ) : Call → List Instr
  | .write header parts =>
    -- The array of packets, of which the header's does not capture, and the gather write.
    [.enter] ++ (if header then [.allocate, .share n false] else []) ++ parts.map .copy ++
      [.allocate, .handOver (if header then n + 1 else n)]
  | .watcherEvent => [.enter, .allocate, .handOver n]
  | .onPacketArrived .failed => [.enter]
  | .onPacketArrived .unknown => [.enter, .allocate]
  | .onPacketArrived .propagated => [.enter, .allocate, .handOver n]
  | .push => [.enter, .allocate, .handOver n]
  -- The buffers that gnutls passes to `vec_push` belong to gnutls.
  | .iov count => [.enter] ++ List.replicate count .allocate
  | .vecPush blocks => [.enter] ++ blocks.map (.share · true) ++ [.allocate, .handOver n]
  | .handleData false => [.enter, .allocate]
  -- `packetBuffer.get()` instead of `packetBuffer.release()`.
  | .handleData true => [.enter, .allocate, .allocate, .share (n + 1) true]

/-- A call, the return of the innermost function, also by an exception, and what listeners do
with packets: they store copies and destroy them. -/
inductive Event where
  | call (c : Call)
  | ret
  | keep (p : ℕ)
  | drop (p : ℕ)
deriving DecidableEq, Repr

def Event.instrs (n : ℕ) : Event → List Instr
  | .call c => c.instrs n
  | .ret => [.leave]
  | .keep p => [.keep p]
  | .drop p => [.drop p]

def step (s : State) (e : Event) : State :=
  Runs.run State.step s (e.instrs s.heap.blocks.length)

/-- The blocks that a packet captures though they have an owner. -/
def taken (s : State) (e : Event) : List ℕ :=
  Simulation.trace State.step State.shared s (e.instrs s.heap.blocks.length)

/-- No block has been deleted twice, and none under a packet that captures it. -/
def Safe (s : State) : Prop :=
  ∀ b, s.heap.deletes b ≤ 1 ∧ (s.heap.Held b → s.heap.deletes b = 0)

example : Runs.run step .empty [.call (.handleData true), .ret] =
    ⟨⟨[⟨false, 1⟩, ⟨false, 2⟩], [⟨1, true, 0⟩], [none]⟩, [], []⟩ := by decide

variable {s : State} {events : List Event} {b : ℕ}

theorem sound_step (hs : s.Sound) (e : Event) : (step s e).Sound := State.sound_run hs _

theorem sound_run (events : List Event) : (Runs.run step .empty events).Sound :=
  Runs.invariant (fun _ e hs => sound_step hs e) State.sound_empty

theorem claims_run (hs : s.Sound) (events : List Event) (b : ℕ) :
    (Runs.run step s events).heap.claims b + s.heap.allocated b =
      s.heap.claims b + (Runs.run step s events).heap.allocated b +
        (Simulation.trace step taken s events).count b := by
  induction events generalizing s with
  | nil => rfl
  | cons e events ih =>
    have hstep : (step s e).heap.claims b + s.heap.allocated b =
      s.heap.claims b + (step s e).heap.allocated b + (taken s e).count b :=
        State.claims_run hs _ b
    have hrest := ih (sound_step hs e)
    simp only [Runs.run_cons, Simulation.trace, List.count_append]
    omega

/-- Deletions of a block that have happened and those that are still to come. -/
theorem deletes_run (events : List Event) (b : ℕ) :
    let s := Runs.run step .empty events
    s.heap.deletes b + s.heap.captors b + (s.heap.owned b).toNat =
      s.heap.allocated b + (Simulation.trace step taken .empty events).count b := by
  have h := claims_run State.sound_empty events b
  have hz : State.empty.heap.claims b = 0 := by
    simp [State.empty, Heap.empty, Heap.claims, Heap.deletes, Heap.captors, Heap.owned]
  have ha : State.empty.heap.allocated b = 0 := rfl
  rw [hz, ha] at h
  simpa [Heap.claims] using h

/-- When all functions have returned, no unique pointer is left. -/
theorem not_owned_of_returned (hs : s.Sound) (hr : s.scopes = []) : s.heap.owned b = false := by
  rw [Bool.eq_false_iff, ne_eq, hs.owned b, State.buffers, hr]
  exact List.not_mem_nil

theorem taken_vecPush (s : State) (blocks : List ℕ) :
    taken s (.call (.vecPush blocks)) = blocks.filter s.heap.owned := by
  have hmap := (State.shared_map (s := s.step .enter) (List.cons_ne_nil _ _) blocks).1
  simp only [taken, Event.instrs, Call.instrs, List.cons_append, List.nil_append]
  rw [Simulation.trace, Simulation.trace_append, hmap]
  simp [Simulation.trace, State.shared]
  rfl

theorem taken_received (s : State) :
    taken s (.call (.handleData true)) = [s.heap.blocks.length + 1] := by
  have hlen : s.heap.allocate.blocks.length = s.heap.blocks.length + 1 := by
    simp [Heap.allocate]
  simp [taken, Event.instrs, Call.instrs, Simulation.trace, State.shared, State.step, hlen]

/-- No other function captures a block that has an owner. -/
theorem taken_other {e : Event} (hv : ∀ blocks, e ≠ .call (.vecPush blocks))
    (hd : e ≠ .call (.handleData true)) : taken s e = [] := by
  rw [List.eq_nil_iff_forall_not_mem]
  intro b hb
  have hmem := State.share_of_shared hb
  cases e with
  | call c =>
    cases c with
    | write header parts => cases header <;> simp [Event.instrs, Call.instrs] at hmem
    | vecPush blocks => exact hv blocks rfl
    | handleData received =>
      cases received
      · simp [Event.instrs, Call.instrs] at hmem
      · exact hd rfl
    | onPacketArrived arrival => cases arrival <;> simp [Event.instrs, Call.instrs] at hmem
    | iov count => simp [Event.instrs, Call.instrs] at hmem
    | watcherEvent => simp [Event.instrs, Call.instrs] at hmem
    | push => simp [Event.instrs, Call.instrs] at hmem
  | ret => simp [Event.instrs] at hmem
  | keep p => simp [Event.instrs] at hmem
  | drop p => simp [Event.instrs] at hmem

/-- The functions hand over what they have allocated themselves. -/
theorem le_of_handOver {e : Event} {n : ℕ} (h : .handOver b ∈ e.instrs n) : n ≤ b := by
  cases e with
  | call c =>
    cases c with
    | write header parts =>
      cases header
      · simp [Event.instrs, Call.instrs] at h
        omega
      · simp [Event.instrs, Call.instrs] at h
        omega
    | onPacketArrived arrival =>
      cases arrival <;> simp [Event.instrs, Call.instrs] at h
      omega
    | handleData received => cases received <;> simp [Event.instrs, Call.instrs] at h
    | iov count => simp [Event.instrs, Call.instrs] at h
    | _ =>
      simp [Event.instrs, Call.instrs] at h
      omega
  | _ => simp [Event.instrs] at h

theorem bound_step (hb : s.heap.Bound b) (e : Event) : (step s e).heap.Bound b :=
  State.bound_run hb fun h => Nat.lt_irrefl b ((State.lt_of_bound hb).trans_le (le_of_handOver h))

theorem bound_taken {e : Event} (hb : b ∈ taken s e) : (step s e).heap.Bound b := by
  refine State.bound_of_shared hb fun h => ?_
  by_cases hd : e = .call (.handleData true)
  · subst hd
    simp [Event.instrs, Call.instrs] at h
  · by_cases hv : ∃ blocks, e = .call (.vecPush blocks)
    · obtain ⟨blocks, rfl⟩ := hv
      rw [taken_vecPush] at hb
      have hlt := Heap.lt_of_owned (List.of_mem_filter hb)
      exact Nat.lt_irrefl b (hlt.trans_le (le_of_handOver h))
    · rw [taken_other (fun blocks he => hv ⟨blocks, he⟩) hd] at hb
      cases hb

/-- Whoever else owns a block that a packet has captured deletes it. -/
theorem bound_run (h : s.heap.Bound b ∨ b ∈ Simulation.trace step taken s events) :
    (Runs.run step s events).heap.Bound b := by
  induction events generalizing s with
  | nil => exact h.resolve_right List.not_mem_nil
  | cons e events ih =>
    refine ih ?_
    rcases h with h | h
    · exact Or.inl (bound_step h e)
    · rcases List.mem_append.mp h with h | h
      · exact Or.inl (bound_taken h)
      · exact Or.inr h

/-- Neither a session that receives data nor gnutls sending from its own buffers. -/
def Clean (s : State) (e : Event) : Prop :=
  e ≠ .call (.handleData true) ∧
    ∀ blocks, e = .call (.vecPush blocks) → ∀ b ∈ blocks, ¬ s.heap.owned b

theorem taken_eq_nil_iff {e : Event} : taken s e = [] ↔ Clean s e := by
  by_cases hd : e = .call (.handleData true)
  · subst hd
    simp [taken_received, Clean]
  · by_cases hv : ∃ blocks, e = .call (.vecPush blocks)
    · obtain ⟨blocks, rfl⟩ := hv
      simp [taken_vecPush, Clean, List.filter_eq_nil_iff]
    · have htaken : taken s e = [] := taken_other (fun blocks he => hv ⟨blocks, he⟩) hd
      refine iff_of_true htaken ⟨hd, fun blocks he => absurd ⟨blocks, he⟩ hv⟩

theorem trace_taken_eq_nil_iff :
    Simulation.trace step taken s events = [] ↔ Runs.Along step Clean s events := by
  induction events generalizing s with
  | nil => exact iff_of_true rfl trivial
  | cons e events ih =>
    rw [Simulation.trace, List.append_eq_nil_iff, taken_eq_nil_iff, ih]
    rfl

/-- At any moment of any run, calls nested to any depth: a block that no packet has captured under
another owner is deleted at most once, and as soon as neither a packet nor a unique pointer owns it
any more. One that has been captured so is deleted by its other owner while packets are left on it,
and in the end once for each. -/
theorem blocks_deleted (events : List Event) (b : ℕ) :
    let s := Runs.run step .empty events
    let captured := (Simulation.trace step taken .empty events).count b
    (captured = 0 → s.heap.deletes b ≤ 1 ∧
      (s.heap.deletes b = 0 ↔ s.heap.Held b ∨ s.heap.owned b ∨ s.heap.blocks.length ≤ b)) ∧
    (0 < captured → s.scopes = [] → 0 < s.heap.deletes b ∧
      (¬ s.heap.Held b → s.heap.deletes b = 1 + captured)) := by
  intro s captured
  have hsum : s.heap.deletes b + s.heap.captors b + (s.heap.owned b).toNat =
      s.heap.allocated b + captured := deletes_run events b
  have hs : s.Sound := sound_run events
  rw [← Heap.captors_pos_iff hs.counted]
  refine ⟨fun hzero => ?_, fun hpos hr => ?_⟩
  · have halloc : s.heap.allocated b = if b < s.heap.blocks.length then 1 else 0 := rfl
    rw [hzero, halloc] at hsum
    cases ho : s.heap.owned b <;> simp only [ho, Bool.toNat_true, Bool.toNat_false] at hsum
    · split at hsum <;> grind
    · split at hsum <;> grind
  · have hb : s.heap.Bound b := bound_run (Or.inr (List.count_pos_iff.mp hpos))
    have hown := not_owned_of_returned (b := b) hs hr
    have halloc : s.heap.allocated b = 1 := if_pos (State.lt_of_bound hb)
    rw [hown, halloc] at hsum
    refine ⟨hb.resolve_left (by simp [hown]), fun hnone => ?_⟩
    simp only [Bool.toNat_false] at hsum
    omega

/-- In a run that has returned, no block was deleted twice or under a packet, exactly if no
session has received data and gnutls has not sent from buffers of its own. -/
theorem memory_safe_iff (events : List Event) (hr : (Runs.run step .empty events).scopes = []) :
    Safe (Runs.run step .empty events) ↔ Runs.Along step Clean .empty events := by
  rw [← trace_taken_eq_nil_iff]
  constructor
  · intro hsafe
    rw [List.eq_nil_iff_forall_not_mem]
    intro b hb
    have hpos := List.count_pos_iff.mpr hb
    obtain ⟨hdeleted, hfree⟩ := (blocks_deleted events b).2 hpos hr
    obtain ⟨hle, hheld⟩ := hsafe b
    by_cases hh : (Runs.run step .empty events).heap.Held b
    · exact Nat.ne_of_gt hdeleted (hheld hh)
    · have := hfree hh
      omega
  · intro hnil b
    have hzero : (Simulation.trace step taken .empty events).count b = 0 := by simp [hnil]
    obtain ⟨hle, hiff⟩ := (blocks_deleted events b).1 hzero
    exact ⟨hle, fun hh => hiff.mpr (Or.inl hh)⟩

/-- The packet of received data is deleted, and then its buffer again. -/
theorem memory_safe_received : ¬ Safe (Runs.run step .empty [.call (.handleData true), .ret]) :=
  fun h => ((memory_safe_iff _ (by decide)).mp h).1.1 rfl

end Wetnork.Packet.Ownership
