import Wetnork.Udp.Peers

/-! Descriptors of links: `connect` closes each one before the link gets it, or never. -/
namespace Wetnork.Udp

open Runs (Along)
open Descriptors (Owned)

variable {s : UdpSocket} {a : Action} {peer : SocketAddress} {fd : ℕ} {os : Opening}

/-- The descriptor a live link holds. -/
def held (s : UdpSocket) (id : ℕ) : Option ℕ :=
  match s.links id with
  | none => none
  | some link => if link.destroyed = 0 then some link.fd else none

/-- The open descriptors are those of the live links, one each; and a link in the table holds
one that was opened for its peer. -/
structure Owning (s : UdpSocket) : Prop where
  owned : Owned s.files (held s)
  opened : ∀ peer id, s.peers.lookup peer = some id →
    ∃ link, s.links id = some link ∧ link.destroyed = 0 ∧ s.files.file link.fd = some peer

/-- The step leaves the descriptors owned; a `connect` that throws leaves them and the table as
they were, and `write` sends through a descriptor that was opened for the peer of the link. -/
def Responsible (s : UdpSocket) (a : Action) : Prop :=
  Owning (step s a) ∧ (s.alive = true →
    match a with
    | .connect peer os => ∀ e, (s.connect peer os).2 = .error e →
        (step s a).files = s.files ∧ (step s a).peers = s.peers
    | .write id packet results => ∀ link, s.links id = some link → link.destroyed = 0 →
        ∀ call ∈ (link.write packet results).1, s.files.file call.fd = some link.peer
    | _ => True)

/-- No call of `connect` comes as far as opening a descriptor. -/
def Unopened (s : UdpSocket) : Action → Prop
  | .connect peer os => s.alive = true → peer.family = s.family →
    ∃ number, os.socket = .error number
  | _ => True

/-- Nothing was ever opened. -/
structure Untouched (s : UdpSocket) : Prop where
  peers : s.peers = ∅
  files : s.files = .empty
  links : ∀ id, s.links id = none

namespace Untouched

theorem new (family : AddressFamily) : Untouched (.new family) := ⟨rfl, rfl, fun _ => rfl⟩

theorem owning (h : Untouched s) : Owning s where
  owned := by
    have hheld : held s = fun _ => none := funext fun id => by rw [held, h.links id]
    rw [h.files, hheld]
    exact Descriptors.owned_empty
  opened peer id hp := by simp [h.peers] at hp

theorem connect_of_unopened (ha : s.alive = true) (hc : Unopened s (.connect peer os)) :
    (s.connect peer os).1 = s := by
  rw [UdpSocket.connect]
  split
  · rfl
  · next hf =>
    obtain ⟨number, hs⟩ := hc ha (not_not.mp hf)
    rw [hs]

theorem step (h : Untouched s) (hc : Unopened s a) : Untouched (step s a) := by
  unfold Udp.step
  split
  · next ha =>
    cases a with
    | connect peer os => simpa only [connect_of_unopened ha hc] using h
    | close id => simpa only [UdpSocket.closeLink, h.links id] using h
    | write id packet results => exact h
    | arrive arrival => exact h
    | destroy =>
      simp only [UdpSocket.destroy_eq]
      exact ⟨rfl, h.files, fun id => by simp [h.links id]⟩
  · exact h

/-- Whichever way `::connect` ends, a descriptor is lost. -/
theorem not_responsible (h : Untouched s) (ha : s.alive = true) (hf : peer.family = s.family)
    (hs : os.socket = .ok fd) : ¬ Responsible s (.connect peer os) := by
  rintro ⟨hown, hr⟩
  have hfile : s.files.file fd = none := by rw [h.files]; rfl
  have hp : s.peers.lookup peer = none := by simp [h.peers]
  rcases hc : os.connect with - | number
  · -- the new link holds a descriptor that is closed already
    simp only [Udp.step, ha, if_true, UdpSocket.connect_new hf hs hc hp] at hown
    have hopen := hown.owned.isOpen s.created fd (by simp [held, UdpSocket.connected])
    rw [UdpSocket.connected, Descriptors.Table.close_opened peer hfile] at hopen
    exact hopen hfile
  · have heq : s.connect peer os = ({ s with files := s.files.opened fd peer },
        .error (.socketException number "Could not connect: ")) := by
      simp [UdpSocket.connect, hf, hs, hc]
    obtain ⟨hfiles, -⟩ := hr ha _ (by rw [heq])
    simp only [Udp.step, ha, if_true, heq] at hfiles
    exact Descriptors.Table.opened_ne hfile hfiles

theorem responsible_iff (h : Untouched s) : Responsible s a ↔ Unopened s a := by
  constructor
  · intro hr
    cases a with
    | connect peer os =>
      intro ha hf
      rcases hs : os.socket with number | fd
      · exact ⟨number, rfl⟩
      · exact absurd hr (h.not_responsible ha hf hs)
    | _ => trivial
  · intro hc
    refine ⟨(h.step hc).owning, fun ha => ?_⟩
    cases a with
    | connect peer os =>
      intro e _
      simp only [Udp.step, ha, if_true, connect_of_unopened ha hc, and_self]
    | write id packet results =>
      intro link hl
      rw [h.links id] at hl
      cases hl
    | _ => trivial

end Untouched

/-- The descriptors are looked after exactly as long as none is opened. -/
theorem descriptors_owned_iff_unopened (family : AddressFamily) (actions : List Action)
    (h : Along step Possible (.new family) actions) :
    Along step Responsible (.new family) actions ↔ Along step Unopened (.new family) actions :=
  Runs.along_iff (fun _ _ hs _ => hs.responsible_iff) (fun _ _ hs _ hc => hs.step hc)
    (Untouched.new family) h

/-- Nothing is opened when the peer is of the wrong family or the process is out of descriptors. -/
theorem descriptors_owned_unopened :
    let p : SocketAddress := ⟨.ipv4, [0, 1, 127, 0, 0, 1] ++ List.replicate 20 0, rfl, by decide⟩
    let q : SocketAddress := ⟨.ipv6, List.replicate 26 1, rfl, by decide⟩
    Along step Responsible (.new .ipv4)
      [.connect p ⟨.error 24, none⟩, .connect q ⟨.ok 3, none⟩, .destroy] := by
  intro p q
  refine (descriptors_owned_iff_unopened _ _ ?_).mpr ?_
  · refine ⟨nofun, ?_, trivial, trivial⟩
    rintro fd ⟨⟩
    rfl
  · refine ⟨fun _ _ => ⟨24, rfl⟩, ?_, trivial, trivial⟩
    intro _ hf
    cases hf

/-- Two links get the same number, which neither of them owns. -/
theorem descriptor_shared :
    let p : SocketAddress := ⟨.ipv4, [0, 1, 127, 0, 0, 1] ++ List.replicate 20 0, rfl, by decide⟩
    let q : SocketAddress := ⟨.ipv4, [0, 2, 127, 0, 0, 1] ++ List.replicate 20 0, rfl, by decide⟩
    let actions : List Action := [.connect p ⟨.ok 3, none⟩, .connect q ⟨.ok 3, none⟩]
    let s := Runs.run step (.new .ipv4) actions
    held s 0 = some 3 ∧ held s 1 = some 3 ∧ s.files.file 3 = none ∧
      Along step Possible (.new .ipv4) actions ∧
      ¬ Along step Responsible (.new .ipv4) actions := by
  intro p q actions s
  have h₀ : held s 0 = some 3 := by decide
  have h₁ : held s 1 = some 3 := by decide
  refine ⟨h₀, h₁, by decide, ⟨?_, ?_, trivial⟩, ?_⟩
  · rintro fd ⟨⟩
    rfl
  · rintro fd ⟨⟩
    rfl
  · rintro ⟨-, ⟨hown, -⟩, -⟩
    exact absurd (hown.owned.unique 0 1 3 h₀ h₁) (by decide)

end Wetnork.Udp
