import Wetnork.Udp.Ownership
import Wetnork.Library.Simulation

/-! The descriptors of a process with any number of `UdpSocket`s: which of them are ever closed. -/
namespace Wetnork.Udp

open Runs (Along)
open Descriptors (Owned Table)

/-- Results of the system calls of `create`: an error number or the new descriptor from `socket`,
and the error number of `::bind` if it fails. -/
structure Binding where
  socket : Except ℤ ℕ
  bind : Option ℤ

/-- The sockets by address, which share one table of descriptors. `own` has the descriptor that
`create` gave to each socket, `lost` those of calls of `connect` that threw with theirs open. -/
structure Process where
  sockets : ℕ → Option UdpSocket
  own : ℕ → Option ℕ
  created : ℕ
  lost : ℕ → Option ℕ
  lostCount : ℕ
  files : Table SocketAddress

/-- The descriptor that a call leaves open, and no object knows. -/
def leaves (s : UdpSocket) : Action → Option ℕ
  | .connect peer os =>
    if s.alive ∧ peer.family = s.family then
      match os.socket, os.connect with
      | .ok fd, some _ => some fd
      | _, _ => none
    else
      none
  | _ => none

namespace Process

def new : Process := ⟨fun _ => none, fun _ => none, 0, fun _ => none, 0, .empty⟩

/-- `UdpSocket::create`; the texts of the exceptions are without the message of the system. -/
def create (p : Process) (addr : SocketAddress) (os : Binding) : Process × Except Exception ℕ :=
  match os.socket with
  | .error number => (p, .error (.socketException number "Could not open socket: "))
  | .ok fd =>
    let files := p.files.opened fd addr
    match os.bind with
    | some number =>
      ({ p with files := files.close fd }, .error (.socketException number "Could not bind: "))
    | none =>
      ({ p with
        sockets := Function.update p.sockets p.created (some (.new addr.family))
        own := Function.update p.own p.created (some fd)
        created := p.created + 1
        files := files }, .ok p.created)

/-- A call on a socket, its destructor included. -/
def call (p : Process) (i : ℕ) (a : Action) : Process :=
  match p.sockets i with
  | none => p
  | some s =>
    let t := Udp.step { s with files := p.files } a
    let p := { p with sockets := Function.update p.sockets i (some t), files := t.files }
    match leaves s a with
    | none => p
    | some fd =>
      { p with
        lost := Function.update p.lost p.lostCount (some fd)
        lostCount := p.lostCount + 1 }

/-- What holds a descriptor: a socket, also when it has been destroyed, or nobody any more. -/
def holders (p : Process) : ℕ ⊕ ℕ → Option ℕ := Sum.elim p.own p.lost

end Process

inductive ProcessAction where
  | create (addr : SocketAddress) (os : Binding)
  | call (i : ℕ) (a : Action)

namespace ProcessAction

/-- Whether a socket is made. -/
def binds : ProcessAction → Bool
  | .create _ os => os.socket.isOk && os.bind.isNone
  | .call _ _ => false

end ProcessAction

namespace Process

def step (p : Process) : ProcessAction → Process
  | .create addr os => (p.create addr os).1
  | .call i a => p.call i a

/-- Descriptor numbers the system hands out are not in use. -/
def Possible (p : Process) : ProcessAction → Prop
  | .create _ os => ∀ fd, os.socket = .ok fd → p.files.file fd = none
  | .call i a => ∀ s, p.sockets i = some s → Udp.Possible { s with files := p.files } a

/-- The descriptor that a step leaves open without an owner. -/
def leaks (p : Process) : ProcessAction → List ℕ
  | .create _ _ => []
  | .call i a => ((p.sockets i).bind fun s => leaves s a).toList

end Process

section Files

variable {s : UdpSocket} {peer : SocketAddress} {id : ℕ}

@[simp] theorem files_expire (s : UdpSocket) (id : ℕ) : (s.expire id).files = s.files := rfl

theorem files_removeLinkFrom (depth : ℕ) (s : UdpSocket) (peer : SocketAddress) :
    (UdpSocket.removeLinkFrom depth s peer).files = s.files := by
  induction depth generalizing s peer with
  | zero => rfl
  | succ depth ih =>
    simp only [UdpSocket.removeLinkFrom]
    split
    · rfl
    · split
      · rfl
      · rw [files_expire, ih]

@[simp] theorem files_removeLink (s : UdpSocket) (peer : SocketAddress) :
    (s.removeLink peer).files = s.files := by
  unfold UdpSocket.removeLink
  split
  · rfl
  · exact files_removeLinkFrom _ s peer

@[simp] theorem files_destroyLink (s : UdpSocket) (id : ℕ) :
    (s.destroyLink id).files = s.files := by
  unfold UdpSocket.destroyLink
  split
  · rfl
  · simp

@[simp] theorem files_assign (s : UdpSocket) (peer : SocketAddress) (id : ℕ) :
    (s.assign peer id).files = s.files := by
  unfold UdpSocket.assign
  split
  · rfl
  · simp

/-- Of the calls on a socket only `connect` touches descriptors, and what it opens it closes at
once or leaves open for good. -/
theorem files_step {a : Action} (h : Possible s a) :
    (leaves s a = none ∧ (step s a).files = s.files) ∨
      ∃ fd peer, leaves s a = some fd ∧ s.files.file fd = none ∧
        (step s a).files = s.files.opened fd peer := by
  unfold step
  by_cases ha : s.alive = true
  · rw [if_pos ha]
    cases a with
    | connect peer os =>
      by_cases hf : peer.family = s.family
      · simp only [leaves, ha, hf, UdpSocket.connect, ne_eq, not_true_eq_false, if_false, and_self,
          if_true]
        cases hs : os.socket with
        | error number => exact Or.inl ⟨rfl, rfl⟩
        | ok fd =>
          have hfree := h fd hs
          cases hc : os.connect with
          | some number => exact Or.inr ⟨fd, peer, rfl, hfree, rfl⟩
          | none =>
            refine Or.inl ⟨rfl, ?_⟩
            have hclosed := Table.close_opened peer hfree
            dsimp only
            split
            · exact Eq.trans (files_assign _ peer _) hclosed
            · exact Eq.trans (files_assign _ peer _) hclosed
      · simp [leaves, ha, hf, UdpSocket.connect]
    | close id =>
      refine Or.inl ⟨rfl, ?_⟩
      simp only [UdpSocket.closeLink]
      split
      · rfl
      · split <;> rfl
    | write id packet results => exact Or.inl ⟨rfl, rfl⟩
    | arrive arrival => exact Or.inl ⟨rfl, rfl⟩
    | destroy => exact Or.inl ⟨rfl, by simp only [UdpSocket.destroy_eq]⟩
  · rw [if_neg ha]
    refine Or.inl ⟨?_, rfl⟩
    cases a with
    | connect peer os => simp [leaves, ha]
    | _ => rfl

end Files

/-- The open descriptors are those of all sockets that were ever made and those that were lost,
one each. -/
structure Accounted (p : Process) : Prop where
  owned : Owned p.files p.holders
  own : ∀ i, p.own i ≠ none ↔ i < p.created
  lost : ∀ j, p.lost j ≠ none ↔ j < p.lostCount

/-- A counter and the entries it counts. -/
theorem counted_update {f : ℕ → Option ℕ} {k : ℕ} (h : ∀ i, f i ≠ none ↔ i < k) (n i : ℕ) :
    Function.update f k (some n) i ≠ none ↔ i < k + 1 := by
  by_cases hi : i = k
  · simp [hi]
  · rw [Function.update_of_ne hi, h]
    omega

namespace Accounted

variable {p : Process}

theorem new : Accounted .new where
  owned := by
    have hnone : Process.new.holders = fun _ => none := by
      funext i
      cases i <;> rfl
    rw [hnone]
    exact Descriptors.owned_empty
  own i := by simp [Process.new]
  lost j := by simp [Process.new]

theorem create (h : Accounted p) {addr : SocketAddress} {os : Binding}
    (hp : Process.Possible p (.create addr os)) : Accounted (p.create addr os).1 := by
  unfold Process.create
  cases hs : os.socket with
  | error number => exact h
  | ok fd =>
    have hfree := hp fd hs
    cases os.bind with
    | some number =>
      dsimp only
      rw [Table.close_opened addr hfree]
      exact h
    | none =>
      have hnone : p.holders (.inl p.created) = none :=
        not_not.mp (mt (h.own p.created).mp (Nat.lt_irrefl _))
      refine ⟨?_, counted_update h.own fd, h.lost⟩
      have howned := h.owned.opened hfree hnone addr
      rwa [Process.holders, Sum.update_elim_inl] at howned

theorem call (h : Accounted p) {i : ℕ} {a : Action} (hp : Process.Possible p (.call i a)) :
    Accounted (p.call i a) := by
  unfold Process.call
  cases hs : p.sockets i with
  | none => exact h
  | some s =>
    dsimp only
    rcases files_step (hp s hs) with ⟨hl, hf⟩ | ⟨fd, peer, hl, hfree, hf⟩
    · have hl' : leaves s a = none := hl
      rw [hl', hf]
      exact ⟨h.owned, h.own, h.lost⟩
    · have hl' : leaves s a = some fd := hl
      rw [hl', hf]
      have hnone : p.holders (.inr p.lostCount) = none :=
        not_not.mp (mt (h.lost p.lostCount).mp (Nat.lt_irrefl _))
      refine ⟨?_, h.own, counted_update h.lost fd⟩
      have howned := h.owned.opened hfree hnone peer
      rwa [Process.holders, Sum.update_elim_inr] at howned

theorem step (h : Accounted p) {a : ProcessAction} (hp : p.Possible a) : Accounted (p.step a) := by
  cases a with
  | create addr os => exact h.create hp
  | call i a => exact h.call hp

/-- So many descriptors are open. -/
theorem ncard_open (h : Accounted p) :
    {n | p.files.file n ≠ none}.ncard = p.created + p.lostCount := by
  have hown : ∀ i : Fin p.created, ∃ n, p.own i = some n := fun i =>
    Option.ne_none_iff_exists'.mp ((h.own i).mpr i.2)
  have hlost : ∀ j : Fin p.lostCount, ∃ n, p.lost j = some n := fun j =>
    Option.ne_none_iff_exists'.mp ((h.lost j).mpr j.2)
  choose f hf using hown
  choose g hg using hlost
  -- the place of each holder that has a descriptor
  let place : Fin p.created ⊕ Fin p.lostCount → ℕ ⊕ ℕ := Sum.map Fin.val Fin.val
  have hplace : Function.Injective place := Fin.val_injective.sumMap Fin.val_injective
  have hnumber : ∀ k, p.holders (place k) = some (Sum.elim f g k) := by
    rintro (i | j)
    · exact hf i
    · exact hg j
  have hinj : Function.Injective (Sum.elim f g) := by
    intro k l hkl
    apply hplace
    refine h.owned.unique _ _ _ (hnumber k) ?_
    rw [hkl]
    exact hnumber l
  have hrange : {n | p.files.file n ≠ none} = Set.range (Sum.elim f g) := by
    ext n
    constructor
    · intro hn
      obtain ⟨k, hk⟩ := h.owned.held n hn
      cases k with
      | inl i =>
        have hi : i < p.created := (h.own i).mp (by
          change p.own i = some n at hk
          simp [hk])
        exact ⟨.inl ⟨i, hi⟩, Option.some.inj ((hf ⟨i, hi⟩).symm.trans hk)⟩
      | inr j =>
        have hj : j < p.lostCount := (h.lost j).mp (by
          change p.lost j = some n at hk
          simp [hk])
        exact ⟨.inr ⟨j, hj⟩, Option.some.inj ((hg ⟨j, hj⟩).symm.trans hk)⟩
    · rintro ⟨k, rfl⟩
      exact h.owned.isOpen _ _ (hnumber k)
  rw [hrange, Set.ncard_range_of_injective hinj]
  simp

end Accounted

theorem counts_step (p : Process) (a : ProcessAction) :
    (p.step a).created = p.created + a.binds.toNat ∧
      (p.step a).lostCount = p.lostCount + (p.leaks a).length := by
  cases a with
  | create addr os =>
    simp only [Process.step, Process.create, ProcessAction.binds, Process.leaks]
    cases os.socket with
    | error number => exact ⟨rfl, rfl⟩
    | ok fd => cases os.bind <;> exact ⟨rfl, rfl⟩
  | call i a =>
    simp only [Process.step, Process.call, ProcessAction.binds, Process.leaks]
    cases p.sockets i with
    | none => exact ⟨rfl, rfl⟩
    | some s =>
      simp only [Option.bind_some]
      cases leaves s a <;> exact ⟨rfl, rfl⟩

theorem counts_run (p : Process) (actions : List ProcessAction) :
    (Runs.run Process.step p actions).created =
        p.created + actions.countP ProcessAction.binds ∧
      (Runs.run Process.step p actions).lostCount =
        p.lostCount + (Simulation.trace Process.step Process.leaks p actions).length := by
  induction actions generalizing p with
  | nil => exact ⟨rfl, rfl⟩
  | cons a actions ih =>
    obtain ⟨hc, hl⟩ := counts_step p a
    obtain ⟨hcs, hls⟩ := ih (p.step a)
    rw [Runs.run_cons, hcs, hls, hc, hl, Simulation.trace, List.length_append, List.countP_cons]
    cases a.binds <;> simp <;> omega

/-- No descriptor of a `UdpSocket` is ever closed: over every run, those that are open are the ones
of all sockets that were made, destroyed or not, and of all calls of `connect` that could open
but not connect. No two of these share a number, and nothing is closed that was not open. -/
theorem descriptors_never_closed (actions : List ProcessAction)
    (hp : Along Process.step Process.Possible .new actions) :
    let p := Runs.run Process.step .new actions
    Owned p.files p.holders ∧
      {n | p.files.file n ≠ none}.ncard = actions.countP ProcessAction.binds +
        (Simulation.trace Process.step Process.leaks .new actions).length := by
  intro p
  have h : Accounted p := Runs.invariant_along (fun _ _ h => h.step) .new hp
  obtain ⟨hc, hl⟩ := counts_run .new actions
  refine ⟨h.owned, ?_⟩
  rw [h.ncard_open, hc, hl]
  simp [Process.new]

/-- A socket is bound, tries to connect to a peer and is destroyed. -/
theorem descriptors_never_closed_destroyed :
    let addr : SocketAddress := ⟨.ipv4, List.replicate 26 0, rfl, by decide⟩
    let actions : List ProcessAction := [.create addr ⟨.ok 3, none⟩,
      .call 0 (.connect addr ⟨.ok 4, some 111⟩), .call 0 .destroy]
    {n | (Runs.run Process.step .new actions).files.file n ≠ none}.ncard = 2 := by
  intro addr actions
  have hp : Along Process.step Process.Possible .new actions := by
    refine ⟨?_, ?_, ?_, trivial⟩
    · rintro fd ⟨⟩
      rfl
    · rintro s ⟨⟩ fd ⟨⟩
      rfl
    · intro s hs
      trivial
  exact (descriptors_never_closed actions hp).2

end Wetnork.Udp
