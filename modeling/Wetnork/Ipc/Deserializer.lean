import Wetnork.Ipc.Serializer

/-! `ipc::Deserializer` reads an archive with two cursors, which its constructor leaves as it
found them. -/
namespace Wetnork.Ipc

/-- A deserialization hook, as the calls it makes: `pop_raw` for values copied bit by bit and
arrays of them, `readFd` for descriptors. A hook that returns without having constructed its
result is `undefined`. -/
inductive Reader (α : Type) where
  | done (result : α)
  | undefined
  | raw (length : ℕ) (next : Bytes → Reader α)
  | fd (next : ℤ → Reader α)

/-- Reading one value and continuing with it. -/
def Reader.bind {α β : Type} (next : α → Reader β) : Reader α → Reader β
  | .done result => next result
  | .undefined => .undefined
  | .raw length rest => .raw length fun bytes => (rest bytes).bind next
  | .fd rest => .fd fun n => (rest n).bind next

structure Deserializer where
  archive : Archive
  byteOffset : ℕ
  fdOffset : ℕ

inductive Fault where
  | undefined
  | outOfRange
deriving DecidableEq, Repr

namespace Deserializer

/-- `memcpy` from the archive; copying cells outside of it or never written is undefined, so that no
cursor wraps that is moved. -/
def popRaw (d : Deserializer) (length : ℕ) : Except Fault (Bytes × Deserializer) :=
  let window := (d.archive.data.drop d.byteOffset).take length
  if window.length = length ∧ none ∉ window then
    .ok (window.filterMap id, { d with byteOffset := d.byteOffset + length })
  else
    .error .undefined

def readFd (d : Deserializer) : Except Fault (ℤ × Deserializer) :=
  match d.archive.fds[d.fdOffset]? with
  | some n => .ok (n, { d with fdOffset := d.fdOffset + 1 })
  | none => .error .outOfRange

variable {α : Type}

def run : Reader α → Deserializer → Except Fault (α × Deserializer)
  | .done result, d => .ok (result, d)
  | .undefined, _ => .error .undefined
  | .raw length next, d =>
    match d.popRaw length with
    | .ok (bytes, d) => run (next bytes) d
    | .error fault => .error fault
  | .fd next, d =>
    match d.readFd with
    | .ok (n, d) => run (next n) d
    | .error fault => .error fault

end Deserializer

/-- The constructor initialises neither offset: both are what the memory held before. -/
def deserialize {α : Type} (reader : Reader α) (archive : Archive) (byteOffset fdOffset : ℕ) :
    Except Fault α :=
  match Deserializer.run reader ⟨archive, byteOffset, fdOffset⟩ with
  | .ok (result, _) => .ok result
  | .error fault => .error fault

namespace Reader

variable {α β : Type} {reader : Reader α} {bytes rest : Bytes} {fds left : List ℤ} {y : α}

/-- The value a hook reads off the front of two streams, with what it leaves of them. -/
def parse : Reader α → Bytes → List ℤ → Option (α × Bytes × List ℤ)
  | .done result, bytes, fds => some (result, bytes, fds)
  | .undefined, _, _ => none
  | .raw length next, bytes, fds =>
    if length ≤ bytes.length then parse (next (bytes.take length)) (bytes.drop length) fds else none
  | .fd _, _, [] => none
  | .fd next, bytes, n :: fds => parse (next n) bytes fds

theorem parse_bind (next : α → Reader β) (bytes : Bytes) (fds : List ℤ) :
    (reader.bind next).parse bytes fds =
      (reader.parse bytes fds).bind fun ⟨y, bytes, fds⟩ => (next y).parse bytes fds := by
  induction reader generalizing bytes fds with
  | done result => rfl
  | undefined => rfl
  | raw length rest ih =>
    simp only [bind, parse]
    split
    · exact ih _ _ _
    · rfl
  | fd rest ih =>
    cases fds with
    | nil => rfl
    | cons n fds => exact ih n bytes fds

@[simp] theorem parse_raw_append {length : ℕ} (next : Bytes → Reader α)
    (h : bytes.length = length) :
    (raw length next).parse (bytes ++ rest) fds = (next bytes).parse rest fds := by
  rw [parse, List.take_left' h, List.drop_left' h, if_pos (by rw [List.length_append]; omega)]

/-- What was copied bit by bit stood at the front of the bytes. -/
theorem parse_raw_eq_some {length : ℕ} {next : Bytes → Reader α}
    (h : (raw length next).parse bytes fds = some (y, rest, left)) :
    ∃ item more, item.length = length ∧ bytes = item ++ more ∧
      (next item).parse more fds = some (y, rest, left) := by
  rw [parse] at h
  split at h
  · exact ⟨_, _, by rw [List.length_take]; omega, (List.take_append_drop length bytes).symm, h⟩
  · cases h

/-- A hook does not look beyond what it reads. -/
theorem parse_append (more : Bytes) (others : List ℤ)
    (h : reader.parse bytes fds = some (y, rest, left)) :
    reader.parse (bytes ++ more) (fds ++ others) = some (y, rest ++ more, left ++ others) := by
  induction reader generalizing bytes fds with
  | done result =>
    obtain ⟨rfl, rfl, rfl⟩ : result = y ∧ bytes = rest ∧ fds = left := by simpa [parse] using h
    rfl
  | undefined => cases h
  | raw length next ih =>
    simp only [parse] at h ⊢
    split at h
    · next hle =>
      have hle' : length ≤ (bytes ++ more).length := by
        rw [List.length_append]
        omega
      rw [if_pos hle', List.take_append_of_le_length hle, List.drop_append_of_le_length hle]
      exact ih _ h
    · cases h
  | fd next ih =>
    cases fds with
    | nil => cases h
    | cons n fds => exact ih n h

end Reader

namespace Deserializer

variable {α : Type}

end Deserializer

end Wetnork.Ipc
