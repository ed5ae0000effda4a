import Mathlib.Data.List.AList
import Wetnork.Library.Descriptors
import Wetnork.Library.Runs

/-! `host::TunDevice` and `host::TunRegistry`: raw descriptors in movable objects. -/
namespace Wetnork.Host

/-- A network interface as the kernel knows it. -/
structure Interface where
  index : ℕ
  name : String
deriving DecidableEq, Repr

structure TunDevice where
  fd : ℤ
  ifIndex : ℤ
  name : String
deriving DecidableEq, Repr

/-- A `TunDevice` that exists. One that a registry owns is handed out as `const` only; whether it
has been moved from, and not been assigned to since, is noted beside it. -/
structure Object extends TunDevice where
  registered : Bool
  movedFrom : Bool
deriving DecidableEq, Repr

/-- `std::system_error` -/
structure SystemError where
  number : ℤ
deriving DecidableEq, Repr

def EBADF : ℤ := 9

/-- The map of a `TunRegistry`, with the addresses of the devices. -/
abbrev Devices := AList fun _ : String => ℕ

/-- Registries and devices by address, and the open descriptors; a descriptor of the clone device
stands for an interface once `TUNSETIFF` has succeeded. -/
structure System where
  registries : ℕ → Option Devices
  registryCount : ℕ
  objects : ℕ → Option Object
  objectCount : ℕ
  files : Descriptors.Table (Option Interface)

/-- Results of the system calls of `createDevice`: of `open`, of the `ioctl` with the interface that
the descriptor then stands for, and of `if_nametoindex`, which is `0` if it fails. -/
structure Creation where
  openResult : Except ℤ ℕ
  ioctl : Except ℤ Interface
  lookup : ℕ

namespace System

def new : System := ⟨fun _ => none, 0, fun _ => none, 0, .empty⟩

/-- `TunDevice::close` -/
def close (s : System) (fd : ℤ) : System :=
  if 0 ≤ fd then { s with files := s.files.close fd.toNat } else s

/-- A new object at the next address. -/
def place (s : System) (object : Object) : System :=
  { s with
    objects := Function.update s.objects s.objectCount (some object)
    objectCount := s.objectCount + 1 }

def setRegistry (s : System) (r : ℕ) (devices : Option Devices) : System :=
  { s with registries := Function.update s.registries r devices }

def modify (s : System) (d : ℕ) (f : Object → Object) : System :=
  { s with objects := Function.update s.objects d ((s.objects d).map f) }

/-- `~TunDevice` -/
def destroyDevice (s : System) (d : ℕ) : System :=
  match s.objects d with
  | none => s
  | some object => close { s with objects := Function.update s.objects d none } object.fd

/-- `devices[name] = …`: the new pointer is stored, then the old device is destroyed. -/
def assign (s : System) (r : ℕ) (name : String) (d : ℕ) : System :=
  match s.registries r with
  | none => s
  | some devices =>
    let stored := s.setRegistry r (some (devices.insert name d))
    match devices.lookup name with
    | none => stored
    | some old => stored.destroyDevice old

/-- `TunRegistry::createDevice`; what `if_nametoindex` returns is not looked at. -/
def createDevice (s : System) (r : ℕ) (os : Creation) : System × Except SystemError ℕ :=
  match os.openResult with
  | .error number => (s, .error ⟨number⟩)
  | .ok fd =>
    let s := { s with files := s.files.opened fd none }
    match os.ioctl with
    | .error number => ({ s with files := s.files.close fd }, .error ⟨number⟩)
    | .ok interface =>
      let s := { s with files := s.files.opened fd (some interface) }
      let d := s.objectCount
      let s := s.place ⟨⟨fd, os.lookup, interface.name⟩, true, false⟩
      (s.assign r interface.name d, .ok d)

/-- `TunRegistry::findDevice` -/
def findDevice (s : System) (r : ℕ) (name : String) : Option ℕ :=
  (s.registries r).bind fun devices => devices.lookup name

/-- `TunRegistry::closeDevice` -/
def closeDevice (s : System) (r : ℕ) (name : String) : System × Bool :=
  match s.registries r with
  | none => (s, false)
  | some devices =>
    match devices.lookup name with
    | none => (s, false)
    | some d => ((s.setRegistry r (some (devices.erase name))).destroyDevice d, true)

/-- A registry with these devices at the next address. -/
def placeRegistry (s : System) (devices : Devices) : System :=
  { s with
    registries := Function.update s.registries s.registryCount (some devices)
    registryCount := s.registryCount + 1 }

/-- The devices of a map that is cleared. -/
def destroyAll (s : System) (devices : Devices) : System :=
  devices.entries.foldl (fun s entry => s.destroyDevice entry.2) s

/-- `TunRegistry(TunRegistry&&)` -/
def moveRegistry (s : System) (r : ℕ) : System :=
  match s.registries r with
  | none => s
  | some devices => (s.setRegistry r (some ∅)).placeRegistry devices

/-- `TunRegistry::operator=(TunRegistry&&)`: the map on the left is cleared before it takes over
what the one on the right holds. -/
def assignRegistry (s : System) (lhs rhs : ℕ) : System :=
  match s.registries lhs, s.registries rhs with
  | some old, some _ =>
    let s := (s.setRegistry lhs (some ∅)).destroyAll old
    let s := s.setRegistry lhs (s.registries rhs)
    s.setRegistry rhs (some ∅)
  | _, _ => s

def destroyRegistry (s : System) (r : ℕ) : System :=
  match s.registries r with
  | none => s
  | some devices => (s.setRegistry r none).destroyAll devices

/-- `::dup`, which fails for a number that is not open. -/
def dupFd (s : System) (fd : ℤ) (os : Except ℤ ℕ) : Except ℤ (ℕ × Option Interface) :=
  if 0 ≤ fd then
    match s.files.file fd.toNat with
    | none => .error EBADF
    | some file => os.map (·, file)
  else
    .error EBADF

/-- `TunDevice::dup`; the copy is constructed in the place of the caller. -/
def dup (s : System) (d : ℕ) (os : Except ℤ ℕ) : System × Except SystemError ℕ :=
  match s.objects d with
  | none => (s, .error ⟨EBADF⟩)
  | some object =>
    match s.dupFd object.fd os with
    | .error number => (s, .error ⟨number⟩)
    | .ok (fd, file) =>
      let s := { s with files := s.files.opened fd file }
      (s.place ⟨⟨fd, object.ifIndex, object.name⟩, false, false⟩, .ok s.objectCount)

/-- `TunDevice(TunDevice&&)` -/
def moveConstruct (s : System) (d : ℕ) : System :=
  match s.objects d with
  | none => s
  | some other =>
    if other.registered then
      s
    else
      let s := s.place ⟨⟨other.fd, other.ifIndex, other.name⟩, false, false⟩
      s.modify d fun other => { other with fd := -1, ifIndex := -1, name := "", movedFrom := true }

/-- `TunDevice::operator=(TunDevice&&)`, statement by statement; `ifIndex_` is not assigned. -/
def moveAssign (s : System) (lhs rhs : ℕ) : System :=
  match s.objects lhs, s.objects rhs with
  | some left, some right =>
    if left.registered ∨ right.registered then
      s
    else
      let s := s.close left.fd
      let s := s.modify lhs fun o => { o with fd := right.fd }
      let s := s.modify lhs fun o => { o with name := right.name, movedFrom := false }
      let s := s.modify rhs fun o => { o with name := "", movedFrom := true }
      let s := s.modify rhs fun o => { o with fd := -1 }
      s.modify rhs fun o => { o with ifIndex := -1 }
  | _, _ => s

/-- The end of a device that belongs to a caller. -/
def destroy (s : System) (d : ℕ) : System :=
  match s.objects d with
  | none => s
  | some object => if object.registered then s else s.destroyDevice d

end System

inductive Action where
  | newRegistry
  | createDevice (r : ℕ) (os : Creation)
  | closeDevice (r : ℕ) (name : String)
  | moveRegistry (r : ℕ)
  | assignRegistry (lhs rhs : ℕ)
  | destroyRegistry (r : ℕ)
  | dup (d : ℕ) (os : Except ℤ ℕ)
  | moveConstruct (d : ℕ)
  | moveAssign (lhs rhs : ℕ)
  | destroy (d : ℕ)

/-- Only registries that exist create devices. -/
def step (s : System) : Action → System
  | .newRegistry => s.placeRegistry ∅
  | .createDevice r os => if (s.registries r).isSome then (s.createDevice r os).1 else s
  | .closeDevice r name => (s.closeDevice r name).1
  | .moveRegistry r => s.moveRegistry r
  | .assignRegistry lhs rhs => s.assignRegistry lhs rhs
  | .destroyRegistry r => s.destroyRegistry r
  | .dup d os => (s.dup d os).1
  | .moveConstruct d => s.moveConstruct d
  | .moveAssign lhs rhs => s.moveAssign lhs rhs
  | .destroy d => s.destroy d

/-- Descriptor numbers the system hands out are not in use. -/
def Possible (s : System) : Action → Prop
  | .createDevice _ os => ∀ fd, os.openResult = .ok fd → s.files.file fd = none
  | .dup _ os => ∀ fd, os = .ok fd → s.files.file fd = none
  | _ => True

end Wetnork.Host
