import Wetnork.Packet

/-! The connections `Tunnel`'s constructor makes, and the pointer it makes them through. -/
namespace Wetnork.Wiring

inductive Fault where
  | nullPointer
  | danglingPointer
deriving DecidableEq, Repr

/-- What a signal is connected to: a member function of the tunnel under construction, or
something of somebody else's. -/
inductive Slot where
  | tunRead
  | dataRead
  | propagate
  | other (id : ℕ)
deriving DecidableEq, Repr

/-- A `Stream` with the slots of its read signal. -/
structure Stream where
  read : List Slot
deriving DecidableEq, Repr

def Stream.connectRead (stream : Stream) (slot : Slot) : Stream := ⟨stream.read ++ [slot]⟩

/-- The devices that exist, by address. -/
abbrev Devices := ℕ → Option Stream

/-- `std::unique_ptr<TunDevice>` -/
abbrev Pointer := Option ℕ

/-- `std::move` of a pointer into another one: what the new one and the old one then hold. -/
def move (p : Pointer) : Pointer × Pointer := (p, none)

structure Tunnel where
  link : Stream
  tun : Pointer
  receive : List Slot
deriving DecidableEq, Repr

/-- `target->connectRead(…)` -/
def connectThrough (devices : Devices) (target : Pointer) (slot : Slot) : Except Fault Devices :=
  match target with
  | none => .error .nullPointer
  | some address =>
    match devices address with
    | none => .error .danglingPointer
    | some device => .ok (Function.update devices address (some (device.connectRead slot)))

/-- The body of the constructor, for the pointer that `tun` stands for in it. -/
def connectAll (devices : Devices) (tunnel : Tunnel) (tun : Pointer) :
    Except Fault (Devices × Tunnel) := do
  let devices ← connectThrough devices tun .tunRead
  return (devices, { tunnel with receive := tunnel.receive ++ [Slot.dataRead] })

/-- `Tunnel::Tunnel`. In the body `tun` is the parameter, which the initialiser of the member of
that name has moved from. -/
def construct (devices : Devices) (link : Stream) (tun : Pointer) :
    Except Fault (Devices × Tunnel) :=
  let (member, tun) := move tun
  connectAll devices ⟨link, member, []⟩ tun

inductive Arrival where
  | device (packet : Packet)
  | session (packet : Packet)
deriving DecidableEq, Repr

/-- The calls that matter: `dataChannel->writePacket` and `Tunnel::propagate`. -/
inductive Call where
  | writePacket (packet : Packet)
  | propagate (packet : Packet)
deriving DecidableEq, Repr

/-- What a slot of a read signal calls. -/
def Slot.calls (packet : Packet) : Slot → List Call
  | .tunRead => [.writePacket packet]
  | .dataRead => []
  | .propagate => [.propagate packet]
  | .other _ => []

/-- What the tunnel is made to call when a packet arrives at either end. -/
def arrive (devices : Devices) (tunnel : Tunnel) : Arrival → List Call
  | .device packet =>
    match tunnel.tun.bind devices with
    | none => []
    | some device => device.read.flatMap (Slot.calls packet)
  | .session packet => tunnel.link.read.flatMap (Slot.calls packet)

def Arrival.wanted : Arrival → Call
  | .device packet => .writePacket packet
  | .session packet => .propagate packet

/-- The constructor completes, and every packet that arrives afterwards causes the one call it
should, in the order of arrival. -/
def Wired (devices : Devices) (link : Stream) (tun : Pointer) : Prop :=
  ∃ after tunnel, construct devices link tun = .ok (after, tunnel) ∧
    ∀ arrivals : List Arrival, arrivals.flatMap (arrive after tunnel) = arrivals.map Arrival.wanted

variable {devices after : Devices} {tunnel result : Tunnel} {tun : Pointer}

/-- Through whatever pointer the device is connected, the constructor connects nothing to the
session: its packets cause no call of `Tunnel::propagate` that they did not cause before. -/
theorem session_not_connected (h : connectAll devices tunnel tun = .ok (after, result))
    (packet : Packet) :
    arrive after result (.session packet) = arrive devices tunnel (.session packet) := by
  cases hc : connectThrough devices tun .tunRead with
  | error fault => simp [connectAll, hc, bind, Except.bind] at h
  | ok middle =>
    simp only [connectAll, hc, bind, Except.bind, pure, Except.pure, Except.ok.injEq,
      Prod.mk.injEq] at h
    obtain ⟨-, rfl⟩ := h
    rfl

/-- No tunnel is ever constructed. -/
theorem construct_never_wired (devices : Devices) (link : Stream) (tun : Pointer) :
    construct devices link tun = .error .nullPointer ∧ ¬ Wired devices link tun := by
  have hc : construct devices link tun = .error .nullPointer := rfl
  refine ⟨hc, ?_⟩
  rintro ⟨after, tunnel, hok, -⟩
  rw [hc] at hok
  cases hok

/-- A session without listeners and a device at address 0. -/
theorem construct_null :
    construct (Function.update (fun _ => none) 0 (some ⟨[]⟩)) ⟨[]⟩ (some 0) = .error .nullPointer ∧
      ¬ Wired (Function.update (fun _ => none) 0 (some ⟨[]⟩)) ⟨[]⟩ (some 0) := by
  refine ⟨rfl, ?_⟩
  rintro ⟨after, tunnel, hok, -⟩
  cases hok

end Wetnork.Wiring
