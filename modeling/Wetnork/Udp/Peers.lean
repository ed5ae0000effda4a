import Wetnork.Library.Store
import Wetnork.Udp.Socket

/-! The table of peers over whole runs, as long as no peer is connected to twice. -/
namespace Wetnork.Udp

open Runs (Along)
open Store (update_some_iff)

variable {s : UdpSocket} {peer other : SocketAddress} {id old fd : ℕ} {link : UdpLink}
  {os : Opening}

namespace UdpSocket

@[simp] theorem expire_peers (s : UdpSocket) (id : ℕ) : (s.expire id).peers = s.peers := rfl

/-- The depth that the model allows for is never reached. -/
theorem removeLinkFrom_succ {depth : ℕ} (h : s.peers.keys.length ≤ depth) :
    removeLinkFrom (depth + 1) s peer = removeLinkFrom depth s peer := by
  induction depth generalizing s peer with
  | zero =>
    have hn : s.peers.lookup peer = none := by
      rw [AList.lookup_eq_none, AList.mem_keys, List.length_eq_zero_iff.mp (Nat.le_zero.mp h)]
      exact List.not_mem_nil
    simp [removeLinkFrom, hn]
  | succ depth ih =>
    rw [removeLinkFrom]
    conv_rhs => rw [removeLinkFrom]
    rcases hl : s.peers.lookup peer with - | id
    · rfl
    · rcases hk : s.links id with - | link
      · simp [hk]
      · have hmem : peer ∈ s.peers.keys := AList.mem_keys.mp (AList.lookup_isSome.mp (by simp [hl]))
        have hlen := List.length_erase_of_mem hmem
        have hle : (s.peers.erase peer).keys.length ≤ depth := by
          rw [AList.keys_erase]
          omega
        simp only [hk]
        rw [@ih { s with peers := s.peers.erase peer } link.peer hle]

theorem removeLinkFrom_of_none (depth : ℕ) (h : s.peers.lookup peer = none) :
    removeLinkFrom depth s peer = s := by
  cases depth with
  | zero => rfl
  | succ depth => simp [removeLinkFrom, h]

@[simp] theorem removeLink_of_none (h : s.peers.lookup peer = none) : s.removeLink peer = s := by
  rw [removeLink, removeLinkFrom_of_none _ h, ite_self]

/-- A link in the table that is registered under its own peer goes with its entry. -/
theorem removeLink_of_some (h : s.peers.lookup peer = some id) (hl : s.links id = some link)
    (hp : link.peer = peer) :
    s.removeLink peer = expire { s with peers := s.peers.erase peer } id := by
  have hmem : peer ∈ s.peers.keys := AList.mem_keys.mp (AList.lookup_isSome.mp (by simp [h]))
  obtain ⟨depth, hd⟩ := Nat.exists_eq_succ_of_ne_zero (List.length_pos_of_mem hmem).ne'
  rw [removeLink, if_neg (List.ne_nil_of_mem hmem), hd, removeLinkFrom, h]
  simp only [hl, hp]
  rw [removeLinkFrom_of_none depth (AList.lookup_erase peer s.peers)]

/-- What `connect` makes of the socket if the peer had no entry. -/
def connected (s : UdpSocket) (fd : ℕ) (peer : SocketAddress) : UdpSocket :=
  { s with
    peers := s.peers.insert peer s.created
    links := Function.update s.links s.created (some ⟨peer, fd, .open, 0⟩)
    created := s.created + 1
    files := (s.files.opened fd peer).close fd
    latest := Function.update s.latest peer (some s.created) }

theorem connect_new (hf : peer.family = s.family) (hs : os.socket = .ok fd)
    (hc : os.connect = none) (hp : s.peers.lookup peer = none) :
    s.connect peer os = (s.connected fd peer, .ok s.created) := by
  simp [connect, hf, hs, hc, newLink, assign, hp, connected]

/-- The old link takes the entry of the new one with it, and `connect` does not return. -/
theorem connect_again (hf : peer.family = s.family) (hs : os.socket = .ok fd)
    (hc : os.connect = none) (hp : s.peers.lookup peer = some old)
    (hl : s.links old = some link) (hlp : link.peer = peer) (hne : old ≠ s.created) :
    ∃ e, (s.connect peer os).2 = .error e := by
  have hd : ∀ t : UdpSocket, t.peers.lookup peer = some s.created →
      t.links s.created = some ⟨peer, fd, .open, 0⟩ → t.links old = some link →
      (t.destroyLink old).peers.lookup peer = none := by
    intro t hid hnew hold
    rw [destroyLink, hold]
    simp only [expire_peers, hlp]
    rw [removeLink_of_some hid hnew rfl]
    exact AList.lookup_erase peer t.peers
  simp only [connect, hf, hs, hc, newLink, assign, hp, ne_eq, not_true_eq_false, if_false]
  rw [hd _ (AList.lookup_insert _) (Function.update_self ..)
    ((Function.update_of_ne hne ..).trans hl)]
  exact ⟨_, rfl⟩

theorem destroyLink_of_empty (h : s.peers = ∅) (id : ℕ) : s.destroyLink id = s.expire id := by
  rw [destroyLink]
  rcases hl : s.links id with - | link
  · have hu : Function.update s.links id none = s.links := by rw [← hl, Function.update_eq_self]
    simp [expire, hl, hu]
  · simp [h]

/-- Once the table is empty, destroying links only counts. -/
theorem foldl_destroyLink {entries : List (Sigma fun _ : SocketAddress => ℕ)}
    (h : s.peers = ∅) :
    entries.foldl (fun s entry => s.destroyLink entry.2) s =
      { s with links := fun id => (s.links id).map fun link =>
          { link with destroyed := link.destroyed + (entries.map Sigma.snd).count id } } := by
  induction entries generalizing s with
  | nil => simp
  | cons entry entries ih =>
    rw [List.foldl_cons, destroyLink_of_empty h, @ih (s.expire entry.2) h]
    simp only [expire, UdpSocket.mk.injEq, true_and, and_true]
    funext id
    by_cases hid : id = entry.2
    · subst hid
      rcases s.links entry.2 with - | link
      · simp
      · simp [Nat.add_assoc, Nat.add_comm]
    · simp [Function.update_of_ne hid, Ne.symm hid]

theorem destroy_eq (s : UdpSocket) :
    s.destroy = { s with
      alive := false
      peers := ∅
      links := fun id => (s.links id).map fun link =>
        { link with
          destroyed := link.destroyed + (s.peers.entries.map Sigma.snd).count id } } :=
  foldl_destroyLink rfl

end UdpSocket

/-- The table and the links that are alive say the same: an entry leads to a live link of its
peer, the one returned last for it, and every live link has its entry. -/
structure Consistent (s : UdpSocket) : Prop where
  entry : ∀ peer id, s.peers.lookup peer = some id → ∃ link, s.links id = some link ∧
    link.peer = peer ∧ link.destroyed = 0 ∧ s.latest peer = some id
  listed : ∀ id link, s.links id = some link → link.destroyed = 0 →
    s.peers.lookup link.peer = some id
  once : ∀ id link, s.links id = some link → link.destroyed ≤ 1
  numbered : ∀ id link, s.links id = some link → id < s.created
  known : ∀ peer id, s.latest peer = some id → ∃ link, s.links id = some link ∧ link.peer = peer
  emptied : s.alive = false → s.peers = ∅

namespace Consistent

theorem new (family : AddressFamily) : Consistent (UdpSocket.new family) := by
  constructor <;> simp [UdpSocket.new]

theorem connected (h : Consistent s) (hp : s.peers.lookup peer = none)
    (ha : s.alive = true) : Consistent (s.connected fd peer) := by
  have hne : ∀ id link, s.links id = some link → id ≠ s.created := fun id link hl =>
    (h.numbered id link hl).ne
  constructor
  · intro q id hq
    by_cases hqp : q = peer
    · subst hqp
      obtain rfl : s.created = id := by simpa [UdpSocket.connected] using hq
      exact ⟨⟨q, fd, .open, 0⟩, by simp [UdpSocket.connected]⟩
    · simp only [UdpSocket.connected, AList.lookup_insert_ne hqp] at hq
      obtain ⟨link, hl, hrest⟩ := h.entry q id hq
      exact ⟨link, by simpa [UdpSocket.connected, hne id link hl, hqp] using ⟨hl, hrest⟩⟩
  · intro id link hl hd
    rcases update_some_iff.mp hl with ⟨rfl, rfl⟩ | ⟨-, hl⟩
    · exact AList.lookup_insert _
    · have hlk := h.listed id link hl hd
      have hqp : link.peer ≠ peer := by
        intro he
        rw [he, hp] at hlk
        cases hlk
      exact (AList.lookup_insert_ne hqp).trans hlk
  · intro id link hl
    rcases update_some_iff.mp hl with ⟨-, rfl⟩ | ⟨-, hl⟩
    · exact Nat.zero_le 1
    · exact h.once id link hl
  · intro id link hl
    change id < s.created + 1
    rcases update_some_iff.mp hl with ⟨rfl, -⟩ | ⟨-, hl⟩
    · omega
    · have := h.numbered id link hl
      omega
  · intro q id hq
    rcases update_some_iff.mp hq with ⟨rfl, rfl⟩ | ⟨-, hq⟩
    · exact ⟨⟨q, fd, .open, 0⟩, by simp [UdpSocket.connected]⟩
    · obtain ⟨link, hl, hlp⟩ := h.known q id hq
      exact ⟨link, by simpa [UdpSocket.connected, hne id link hl] using hl, hlp⟩
  · intro hdead
    simp [UdpSocket.connected, ha] at hdead

/-- The table sees of a link its peer and its life only. -/
theorem replace (h : Consistent s) {other : UdpLink} (hl : s.links id = some link)
    (hp : other.peer = link.peer) (hd : other.destroyed = link.destroyed) :
    Consistent { s with links := Function.update s.links id (some other) } := by
  have hback : ∀ i l, Function.update s.links id (some other) i = some l →
      ∃ l', s.links i = some l' ∧ l'.peer = l.peer ∧ l'.destroyed = l.destroyed := by
    intro i l hi
    rcases update_some_iff.mp hi with ⟨rfl, rfl⟩ | ⟨-, hi⟩
    · exact ⟨link, hl, hp.symm, hd.symm⟩
    · exact ⟨l, hi, rfl, rfl⟩
  have hforth : ∀ i l, s.links i = some l → ∃ l',
      Function.update s.links id (some other) i = some l' ∧
        l'.peer = l.peer ∧ l'.destroyed = l.destroyed := by
    intro i l hi
    by_cases hid : i = id
    · subst hid
      obtain rfl : link = l := by simpa [hl] using hi
      exact ⟨other, by simp, hp, hd⟩
    · exact ⟨l, by rwa [Function.update_of_ne hid], rfl, rfl⟩
  constructor
  · intro q i hq
    obtain ⟨l, hi, hp, hd, hlat⟩ := h.entry q i hq
    obtain ⟨l', hi', hp', hd'⟩ := hforth i l hi
    exact ⟨l', hi', hp'.trans hp, hd'.trans hd, hlat⟩
  · intro i l hi hd
    obtain ⟨l', hi', hp', hd'⟩ := hback i l hi
    rw [← hp']
    exact h.listed i l' hi' (hd'.trans hd)
  · intro i l hi
    obtain ⟨l', hi', -, hd'⟩ := hback i l hi
    rw [← hd']
    exact h.once i l' hi'
  · intro i l hi
    obtain ⟨l', hi', -, -⟩ := hback i l hi
    exact h.numbered i l' hi'
  · intro q i hq
    obtain ⟨l, hi, hp⟩ := h.known q i hq
    obtain ⟨l', hi', hp', -⟩ := hforth i l hi
    exact ⟨l', hi', hp'.trans hp⟩
  · exact h.emptied

theorem closeLink (h : Consistent s) (id : ℕ) : Consistent (s.closeLink id) := by
  rw [UdpSocket.closeLink]
  split
  · exact h
  · next link hl =>
    split
    · exact h.replace hl rfl rfl
    · exact h

/-- No link has two entries. -/
theorem ids_nodup (h : Consistent s) : (s.peers.entries.map Sigma.snd).Nodup := by
  refine List.Nodup.map_on ?_ s.peers.nodupKeys.nodup
  rintro ⟨p, i⟩ hp ⟨q, j⟩ hq rfl
  obtain ⟨l, hl, rfl, -⟩ := h.entry p i (AList.mem_lookup_iff.mpr hp)
  obtain ⟨m, hm, rfl, -⟩ := h.entry q i (AList.mem_lookup_iff.mpr hq)
  obtain rfl : l = m := by simpa [hl] using hm
  rfl

theorem mem_ids_iff (h : Consistent s) (hl : s.links id = some link) :
    id ∈ s.peers.entries.map Sigma.snd ↔ link.destroyed = 0 := by
  constructor
  · intro hm
    obtain ⟨⟨q, i⟩, hq, rfl⟩ := List.mem_map.mp hm
    obtain ⟨l, hi, -, hd, -⟩ := h.entry q i (AList.mem_lookup_iff.mpr hq)
    obtain rfl : link = l := by simpa [hl] using hi
    exact hd
  · intro hd
    exact List.mem_map.mpr ⟨_, AList.mem_lookup_iff.mp (h.listed id link hl hd), rfl⟩

/-- When the socket is destroyed, all links have been destroyed exactly once. -/
theorem destroyed_once (h : Consistent s) (hl : s.destroy.links id = some link) :
    link.destroyed = 1 ∧ ∃ l, s.links id = some l ∧ l.peer = link.peer := by
  rw [UdpSocket.destroy_eq] at hl
  obtain ⟨l, hi, rfl⟩ := Option.map_eq_some_iff.mp hl
  refine ⟨?_, l, hi, rfl⟩
  have honce := h.once id l hi
  by_cases hm : id ∈ s.peers.entries.map Sigma.snd
  · have hd := (h.mem_ids_iff hi).mp hm
    simp [List.count_eq_one_of_mem h.ids_nodup hm, hd]
  · have hd : l.destroyed ≠ 0 := fun hd => hm ((h.mem_ids_iff hi).mpr hd)
    simp only [List.count_eq_zero.mpr hm]
    omega

theorem destroy (h : Consistent s) : Consistent s.destroy := by
  have hpeers : s.destroy.peers = ∅ := by rw [UdpSocket.destroy_eq]
  have hlatest : s.destroy.latest = s.latest := by rw [UdpSocket.destroy_eq]
  have hcreated : s.destroy.created = s.created := by rw [UdpSocket.destroy_eq]
  constructor
  · intro q i hq
    simp [hpeers] at hq
  · intro i l hi hd
    have := (h.destroyed_once hi).1
    omega
  · intro i l hi
    have := (h.destroyed_once hi).1
    omega
  · intro i l hi
    obtain ⟨-, l', hi', -⟩ := h.destroyed_once hi
    rw [hcreated]
    exact h.numbered i l' hi'
  · intro q i hq
    rw [hlatest] at hq
    obtain ⟨l, hi, hlq⟩ := h.known q i hq
    rw [UdpSocket.destroy_eq]
    exact ⟨_, Option.map_eq_some_iff.mpr ⟨l, hi, rfl⟩, hlq⟩
  · exact fun _ => hpeers

end Consistent

/-- The system calls of `connect` succeed, for a peer of the family of the socket. -/
def Served (s : UdpSocket) : Action → Prop
  | .connect peer os => peer.family = s.family ∧ os.connect = none ∧
    ∃ fd, os.socket = .ok fd ∧ s.files.file fd = none
  | _ => True

/-- `connect` is called for a peer that has no entry. -/
def NewPeer (s : UdpSocket) : Action → Prop
  | .connect peer _ => s.alive = true → s.peers.lookup peer = none
  | _ => True

/-- No link is destroyed twice or in the table when it is destroyed, and none outlives the
socket. -/
structure Kept (s : UdpSocket) : Prop where
  once : ∀ id link, s.links id = some link → link.destroyed ≤ 1
  live : ∀ peer id, s.peers.lookup peer = some id →
    ∃ link, s.links id = some link ∧ link.destroyed = 0
  all : s.alive = false → ∀ id link, s.links id = some link → link.destroyed = 1

/-- What should become of a datagram: the link that was last returned for its sender propagates
it, if it still exists and is not closed. -/
def delivery (s : UdpSocket) : Option (SocketAddress × Bytes) → List (ℕ × Packet)
  | none => []
  | some (sender, data) =>
    match s.latest sender with
    | none => []
    | some id =>
      match s.links id with
      | none => []
      | some link =>
        if link.destroyed = 0 ∧ link.state ≠ .closed then [(id, .ofBytes data)] else []

/-- The step leaves the links as they should be; `connect` returns a live link that is registered
under its peer and touches no other entry, a datagram is propagated by the right link. -/
def Sound (s : UdpSocket) (a : Action) : Prop :=
  Kept (step s a) ∧ (s.alive = true →
    match a with
    | .connect peer os => ∃ id link, (s.connect peer os).2 = .ok id ∧
        (step s a).links id = some link ∧ link.destroyed = 0 ∧
        (step s a).peers.lookup peer = some id ∧
        ∀ other, other ≠ peer → (step s a).peers.lookup other = s.peers.lookup other
    | .arrive arrival => s.onPacketArrived arrival = delivery s arrival
    | _ => True)

theorem Consistent.kept (h : Consistent s) : Kept s where
  once := h.once
  live peer id hp := by
    obtain ⟨link, hl, -, hd, -⟩ := h.entry peer id hp
    exact ⟨link, hl, hd⟩
  all ha id link hl := by
    have honce := h.once id link hl
    by_cases hd : link.destroyed = 0
    · have hp := h.listed id link hl hd
      rw [h.emptied ha] at hp
      cases hp
    · omega

theorem Consistent.onPacketArrived (h : Consistent s) (arrival : Option (SocketAddress × Bytes)) :
    s.onPacketArrived arrival = delivery s arrival := by
  rcases arrival with - | ⟨sender, data⟩
  · rfl
  rw [UdpSocket.onPacketArrived, delivery]
  rcases hp : s.peers.lookup sender with - | id
  · -- a link that is not in the table has been destroyed
    rcases hlat : s.latest sender with - | id
    · rfl
    · obtain ⟨link, hl, rfl⟩ := h.known sender id hlat
      have hd : link.destroyed ≠ 0 := by
        intro hd
        rw [h.listed id link hl hd] at hp
        cases hp
      simp [hl, hd]
  · obtain ⟨link, hl, -, hd, hlat⟩ := h.entry sender id hp
    simp only [hlat, hl, hd, UdpLink.propagate, true_and]
    by_cases hc : link.state = .closed <;> simp [hc]

theorem consistent_step {a : Action} (h : Consistent s) (hv : Served s a) (hn : NewPeer s a) :
    Consistent (step s a) := by
  unfold step
  split
  · next ha =>
    cases a with
    | connect peer os =>
      obtain ⟨hf, hc, fd, hs, -⟩ := hv
      simp only [UdpSocket.connect_new hf hs hc (hn ha)]
      exact h.connected (hn ha) ha
    | close id => exact h.closeLink id
    | write id packet results => exact h
    | arrive arrival => exact h
    | destroy => exact h.destroy
  · exact h

theorem sound_iff_newPeer {a : Action} (h : Consistent s) (hv : Served s a) :
    Sound s a ↔ NewPeer s a := by
  constructor
  · rintro ⟨-, hr⟩
    cases a with
    | connect peer os =>
      intro ha
      obtain ⟨hf, hc, fd, hs, -⟩ := hv
      obtain ⟨id, link, hok, -⟩ := hr ha
      rcases hp : s.peers.lookup peer with - | old
      · rfl
      · obtain ⟨l, hl, hlp, -⟩ := h.entry peer old hp
        obtain ⟨e, he⟩ :=
          UdpSocket.connect_again hf hs hc hp hl hlp (h.numbered old l hl).ne
        rw [he] at hok
        cases hok
    | _ => trivial
  · intro hn
    refine ⟨(consistent_step h hv hn).kept, fun ha => ?_⟩
    cases a with
    | connect peer os =>
      obtain ⟨hf, hc, fd, hs, -⟩ := hv
      have heq := UdpSocket.connect_new hf hs hc (hn ha)
      refine ⟨s.created, ⟨peer, fd, .open, 0⟩, by rw [heq], ?_⟩
      simp only [step, ha, if_true, heq]
      refine ⟨Function.update_self .., trivial, AList.lookup_insert _, fun other hne => ?_⟩
      exact AList.lookup_insert_ne hne
    | arrive arrival => exact h.onPacketArrived arrival
    | _ => trivial

/-- The table does what it is for exactly as long as no peer is connected to that is still in it. -/
theorem peer_table_iff_new_peers (family : AddressFamily) (actions : List Action)
    (h : Along step Served (.new family) actions) :
    Along step Sound (.new family) actions ↔ Along step NewPeer (.new family) actions :=
  Runs.along_iff (fun _ _ hs hv => sound_iff_newPeer hs hv)
    (fun _ _ hs hv hn => consistent_step hs hv hn) (Consistent.new family) h

/-- Two peers are connected to, one link is closed, datagrams come from both, the socket goes. -/
theorem peer_table_two_peers :
    let p : SocketAddress := ⟨.ipv4, [0, 1, 127, 0, 0, 1] ++ List.replicate 20 0, rfl, by decide⟩
    let q : SocketAddress := ⟨.ipv4, [0, 2, 127, 0, 0, 1] ++ List.replicate 20 0, rfl, by decide⟩
    Along step Sound (.new .ipv4)
      [.connect p ⟨.ok 3, none⟩, .connect q ⟨.ok 3, none⟩, .close 0, .arrive (some (p, [7])),
        .arrive (some (q, [8])), .destroy] := by
  intro p q
  refine (peer_table_iff_new_peers _ _ ?_).mpr ?_
  · refine ⟨⟨rfl, rfl, 3, rfl, rfl⟩, ⟨rfl, rfl, 3, rfl, rfl⟩, ?_⟩
    exact ⟨trivial, trivial, trivial, trivial, trivial⟩
  · refine ⟨fun _ => rfl, fun _ => ?_, ?_⟩
    · decide
    · exact ⟨trivial, trivial, trivial, trivial, trivial⟩

/-- A second `connect` to the same peer throws, and both links are gone. -/
theorem reconnect_throws :
    let p : SocketAddress := ⟨.ipv4, [0, 1, 127, 0, 0, 1] ++ List.replicate 20 0, rfl, by decide⟩
    let q : SocketAddress := ⟨.ipv4, [0, 2, 127, 0, 0, 1] ++ List.replicate 20 0, rfl, by decide⟩
    let s := Runs.run step (.new .ipv4) [.connect q ⟨.ok 3, none⟩, .connect p ⟨.ok 3, none⟩]
    let t := step s (.connect p ⟨.ok 3, none⟩)
    (s.connect p ⟨.ok 3, none⟩).2 = .error .outOfRange ∧
      (t.links 1).map UdpLink.destroyed = some 1 ∧ (t.links 2).map UdpLink.destroyed = some 1 ∧
      ¬ Along step Sound (.new .ipv4) [.connect q ⟨.ok 3, none⟩, .connect p ⟨.ok 3, none⟩,
        .connect p ⟨.ok 3, none⟩] := by
  intro p q s t
  have hthrow : (s.connect p ⟨.ok 3, none⟩).2 = .error .outOfRange := by decide
  refine ⟨hthrow, by decide, by decide, ?_⟩
  rintro ⟨-, -, ⟨-, hr⟩, -⟩
  obtain ⟨id, link, hok, -⟩ := hr rfl
  have heq : s.connect p ⟨.ok 3, none⟩ = (step (step (.new .ipv4) (.connect q ⟨.ok 3, none⟩))
    (.connect p ⟨.ok 3, none⟩)).connect p ⟨.ok 3, none⟩ := rfl
  rw [← heq, hthrow] at hok
  cases hok

end Wetnork.Udp
