import Mathlib.Data.List.AList
import Wetnork.Address.SocketAddress
import Wetnork.Library.Descriptors
import Wetnork.Library.Runs

/-! `UdpSocket` and `UdpLink`: the table of peers owns the links, and the destructor of a link
calls back into the table. -/
namespace Wetnork.Udp

inductive LinkState where
  | invalid
  | opening
  | «open»
  | closed
deriving DecidableEq, Repr

/-- `destroyed` counts the runs of the destructor. -/
structure UdpLink where
  peer : SocketAddress
  fd : ℕ
  state : LinkState
  destroyed : ℕ
deriving DecidableEq, Repr

/-- How a call ends if it does not return. `recursion` is not an exception of the program: its
destructors call each other without end. -/
inductive Exception where
  | invalidArgument (what : String)
  | socketException (number : ℤ) (what : String)
  | outOfRange
  | recursion
deriving DecidableEq, Repr

/-- Why `sendto` failed. -/
inductive SendError where
  | again
  | wouldBlock
  | interrupted
  | hostUnreachable
  | netUnreachable
  | netDown
  | other (number : ℤ)
deriving DecidableEq, Repr

/-- A call of `sendto`. -/
structure Sendto where
  fd : ℕ
  packet : Packet
  peer : SocketAddress
deriving DecidableEq, Repr

namespace UdpLink

/-- `write` with the results of `sendto`, one for each time the call is made: the calls, and what
is returned or thrown at the end. It is still waiting if all results were interruptions. -/
def write (link : UdpLink) (packet : Packet) :
    List (Option SendError) → List Sendto × Option (Except Exception Bool)
  | [] => ([], none)
  | result :: results =>
    let call : Sendto := ⟨link.fd, packet, link.peer⟩
    match result with
    | none => ([call], some (.ok true))
    | some .again => ([call], some (.ok false))
    | some .wouldBlock => ([call], some (.ok false))
    | some .interrupted => (call :: (write link packet results).1, (write link packet results).2)
    | some .hostUnreachable => ([call], some (.ok false))
    | some .netUnreachable => ([call], some (.ok false))
    | some .netDown => ([call], some (.ok false))
    | some (.other number) => ([call], some (.error (.socketException number "")))

/-- `propagate`: the packets that reach the read signal. -/
def propagate (link : UdpLink) (packet : Packet) : List Packet :=
  if link.state = .closed then [] else [packet]

def close (link : UdpLink) : UdpLink := { link with state := .closed }

end UdpLink

/-- The socket with the links it ever made, the descriptors that are open in the process, and for
each peer the link that a call of `connect` returned last. -/
structure UdpSocket where
  family : AddressFamily
  alive : Bool
  peers : AList fun _ : SocketAddress => ℕ
  links : ℕ → Option UdpLink
  created : ℕ
  files : Descriptors.Table SocketAddress
  latest : SocketAddress → Option ℕ

/-- Results of the system calls of `connect`: an error number or the new descriptor from
`socket`, and the error number of `::connect` if it fails. -/
structure Opening where
  socket : Except ℤ ℕ
  connect : Option ℤ

namespace UdpSocket

def new (family : AddressFamily) : UdpSocket :=
  ⟨family, true, ∅, fun _ => none, 0, .empty, fun _ => none⟩

/-- The end of a destructor of a link. -/
def expire (s : UdpSocket) (id : ℕ) : UdpSocket :=
  let after := (s.links id).map fun link => { link with destroyed := link.destroyed + 1 }
  { s with links := Function.update s.links id after }

/-- `removeLink`. The entry is gone before the destructor of its link runs, and that calls
`removeLink` again; the number of entries bounds the depth. (A map that loses its only entry does
it the other way round, see `connect`.) -/
def removeLinkFrom : ℕ → UdpSocket → SocketAddress → UdpSocket
  | 0, s, _ => s
  | depth + 1, s, peer =>
    match s.peers.lookup peer with
    | none => s
    | some id =>
      let s := { s with peers := s.peers.erase peer }
      match s.links id with
      | none => s
      | some link => (removeLinkFrom depth s link.peer).expire id

def removeLink (s : UdpSocket) (peer : SocketAddress) : UdpSocket :=
  if s.peers.keys = [] then s else removeLinkFrom s.peers.keys.length s peer

/-- `~UdpLink` -/
def destroyLink (s : UdpSocket) (id : ℕ) : UdpSocket :=
  match s.links id with
  | none => s
  | some link => (s.removeLink link.peer).expire id

/-- `new UdpLink` -/
def newLink (s : UdpSocket) (fd : ℕ) (peer : SocketAddress) : UdpSocket :=
  { s with
    links := Function.update s.links s.created (some ⟨peer, fd, .open, 0⟩)
    created := s.created + 1 }

/-- `peers[peer] = …`: the new pointer is stored, then the old link is destroyed. -/
def assign (s : UdpSocket) (peer : SocketAddress) (id : ℕ) : UdpSocket :=
  let stored := { s with peers := s.peers.insert peer id }
  match s.peers.lookup peer with
  | none => stored
  | some old => stored.destroyLink old

/-- `connect`; the texts of the exceptions are without the message of the system. If the old link
takes the only entry of the map with it, `std::map::erase` destroys the new link while the entry is
still there, so that its destructor erases it again, and so on. -/
def connect (s : UdpSocket) (peer : SocketAddress) (os : Opening) :
    UdpSocket × Except Exception ℕ :=
  if peer.family ≠ s.family then
    (s, .error (.invalidArgument "peer"))
  else
    match os.socket with
    | .error number => (s, .error (.socketException number "Could not open socket: "))
    | .ok fd =>
      let s := { s with files := s.files.opened fd peer }
      match os.connect with
      | some number => (s, .error (.socketException number "Could not connect: "))
      | none =>
        let s := { s with files := s.files.close fd }
        let s := (s.newLink fd peer).assign peer s.created
        match s.peers.lookup peer with
        | some id => ({ s with latest := Function.update s.latest peer (some id) }, .ok id)
        | none => (s, .error (if s.peers.keys = [] then .recursion else .outOfRange))

/-- `close` on a link, by a caller that holds a reference to it. -/
def closeLink (s : UdpSocket) (id : ℕ) : UdpSocket :=
  match s.links id with
  | none => s
  | some link =>
    if link.destroyed = 0 then
      { s with links := Function.update s.links id (some link.close) }
    else
      s

/-- `onPacketArrived`, given what `recvfrom` returned if it did not fail: which link propagates
which packet. -/
def onPacketArrived (s : UdpSocket) (arrival : Option (SocketAddress × Bytes)) :
    List (ℕ × Packet) :=
  match arrival with
  | none => []
  | some (sender, data) =>
    match s.peers.lookup sender with
    | none => []
    | some id =>
      match s.links id with
      | none => []
      | some link => (link.propagate (.ofBytes data)).map (id, ·)

/-- `~UdpSocket`: the links are destroyed when the table is empty already. -/
def destroy (s : UdpSocket) : UdpSocket :=
  s.peers.entries.foldl (fun s entry => s.destroyLink entry.2) { s with alive := false, peers := ∅ }

end UdpSocket

inductive Action where
  | connect (peer : SocketAddress) (os : Opening)
  | close (id : ℕ)
  | write (id : ℕ) (packet : Packet) (results : List (Option SendError))
  | arrive (arrival : Option (SocketAddress × Bytes))
  | destroy

/-- Nothing is called on a socket that is no longer alive. -/
def step (s : UdpSocket) (a : Action) : UdpSocket :=
  if s.alive then
    match a with
    | .connect peer os => (s.connect peer os).1
    | .close id => s.closeLink id
    | .write _ _ _ => s
    | .arrive _ => s
    | .destroy => s.destroy
  else
    s

/-- Descriptor numbers the system hands out are not in use. -/
def Possible (s : UdpSocket) : Action → Prop
  | .connect _ os => ∀ fd, os.socket = .ok fd → s.files.file fd = none
  | _ => True

end Wetnork.Udp
