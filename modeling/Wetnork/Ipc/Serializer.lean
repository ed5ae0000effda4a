import Wetnork.Packet

/-! `ipc::Serializer`: one pass over an object tree for its size, a second one to write it. -/
namespace Wetnork.Ipc

/-- A value by the calls that are made to write it: items copied bit by bit and arrays of them,
values and arrays of values left to a hook of their own, file descriptors. The hooks of a type for
which `std::is_pod` holds are never called, so its values are items copied bit by bit. -/
inductive Tree where
  | pod (bytes : Bytes)
  | podArray (elements : List Bytes)
  | hooked (calls : List Tree)
  | hookedArray (elements : List Tree)
  | fd (n : ℤ)

/-- A cell of `data` that nothing has been written to is `none`. -/
structure Archive where
  data : List (Option UInt8)
  length : ℕ
  fds : List ℤ
deriving DecidableEq, Repr

structure Serializer where
  buffer : Option (List (Option UInt8))
  offset : ℕ
  fds : List ℤ
deriving DecidableEq, Repr

/-- `memcpy` to `offset`; `none` is a write outside the allocation. -/
def overwrite (cells : List (Option UInt8)) (offset : ℕ) (data : Bytes) :
    Option (List (Option UInt8)) :=
  if offset + data.length ≤ cells.length then
    some (cells.take offset ++ data.map some ++ cells.drop (offset + data.length))
  else
    none

namespace Serializer

/-- `size_t offset_` wraps. -/
def pushRaw (s : Serializer) (data : Bytes) : Option Serializer :=
  let offset := (s.offset + data.length) % 2 ^ 64
  match s.buffer with
  | none => some { s with offset := offset }
  | some cells => do
    let cells ← overwrite cells s.offset data
    return { s with buffer := some cells, offset := offset }

def writeFd (s : Serializer) (fd : ℤ) : Serializer := { s with fds := s.fds ++ [fd] }

mutual

/-- `write`, in the overload of `push` that the type of the item selects. -/
def write (s : Serializer) : Tree → Option Serializer
  | .pod bytes => s.pushRaw bytes
  | .podArray elements => s.pushRaw elements.flatten
  | .hooked calls => writeAll s calls
  | .hookedArray elements => writeAll s elements
  | .fd n => some (s.writeFd n)

/-- The calls of a hook, or the loop over an array. -/
def writeAll (s : Serializer) : List Tree → Option Serializer
  | [] => some s
  | tree :: trees =>
    match write s tree with
    | none => none
    | some s => writeAll s trees

end

/-- Between the two passes: `new uint8_t[offset_]` throws from `2^63` on, and `fds_` is left as
it is. -/
def allocate (s : Serializer) : Option Serializer :=
  if s.offset < 2 ^ 63 then
    some { s with buffer := some (List.replicate s.offset none), offset := 0 }
  else
    none

/-- `none` if `new` throws or a `memcpy` goes astray. -/
def run (item : Tree) : Option Archive := do
  let s ← write ⟨none, 0, []⟩ item
  let s ← s.allocate
  let s ← write s item
  let cells ← s.buffer
  return ⟨cells, s.offset, s.fds⟩

end Serializer

def serialize (item : Tree) : Option Archive := Serializer.run item

/-- What reaches the serializer of a tree, in order. -/
inductive Item where
  | raw (bytes : Bytes)
  | fd (n : ℤ)

/-- The bytes and the descriptors among some items. -/
def bytesOf : List Item → Bytes
  | [] => []
  | .raw bytes :: items => bytes ++ bytesOf items
  | .fd _ :: items => bytesOf items

def fdsOf : List Item → List ℤ
  | [] => []
  | .raw _ :: items => fdsOf items
  | .fd n :: items => n :: fdsOf items

mutual

def Tree.items : Tree → List Item
  | .pod bytes => [.raw bytes]
  | .podArray elements => [.raw elements.flatten]
  | .hooked calls => itemsAll calls
  | .hookedArray elements => itemsAll elements
  | .fd n => [.fd n]

def itemsAll : List Tree → List Item
  | [] => []
  | tree :: trees => tree.items ++ itemsAll trees

end

/-- What one traversal of the tree writes. -/
def Tree.bytes (tree : Tree) : Bytes := bytesOf tree.items

def Tree.fds (tree : Tree) : List ℤ := fdsOf tree.items

namespace Tree

theorem bytesOf_append (items more : List Item) :
    bytesOf (items ++ more) = bytesOf items ++ bytesOf more := by
  induction items with
  | nil => rfl
  | cons item items ih => cases item <;> simp [bytesOf, ih]

theorem fdsOf_append (items more : List Item) :
    fdsOf (items ++ more) = fdsOf items ++ fdsOf more := by
  induction items with
  | nil => rfl
  | cons item items ih => cases item <;> simp [fdsOf, ih]

@[simp] theorem bytes_pod (bytes : Bytes) : (pod bytes).bytes = bytes := List.append_nil bytes

@[simp] theorem fds_pod (bytes : Bytes) : (pod bytes).fds = [] := rfl

@[simp] theorem bytes_podArray (elements : List Bytes) :
    (podArray elements).bytes = elements.flatten := List.append_nil _

@[simp] theorem fds_podArray (elements : List Bytes) : (podArray elements).fds = [] := rfl

@[simp] theorem bytes_fd (n : ℤ) : (fd n).bytes = [] := rfl

@[simp] theorem fds_fd (n : ℤ) : (fd n).fds = [n] := rfl

theorem bytesOf_itemsAll (trees : List Tree) :
    bytesOf (itemsAll trees) = (trees.map Tree.bytes).flatten := by
  induction trees with
  | nil => rfl
  | cons tree trees ih =>
    rw [itemsAll, bytesOf_append, ih]
    rfl

theorem fdsOf_itemsAll (trees : List Tree) :
    fdsOf (itemsAll trees) = (trees.map Tree.fds).flatten := by
  induction trees with
  | nil => rfl
  | cons tree trees ih =>
    rw [itemsAll, fdsOf_append, ih]
    rfl

@[simp] theorem bytes_hooked (calls : List Tree) :
    (hooked calls).bytes = (calls.map Tree.bytes).flatten := bytesOf_itemsAll calls

@[simp] theorem fds_hooked (calls : List Tree) :
    (hooked calls).fds = (calls.map Tree.fds).flatten := fdsOf_itemsAll calls

@[simp] theorem bytes_hookedArray (elements : List Tree) :
    (hookedArray elements).bytes = (elements.map Tree.bytes).flatten := bytesOf_itemsAll elements

@[simp] theorem fds_hookedArray (elements : List Tree) :
    (hookedArray elements).fds = (elements.map Tree.fds).flatten := fdsOf_itemsAll elements

end Tree

namespace Serializer

variable {s : Serializer}

def put (s : Serializer) : Item → Option Serializer
  | .raw bytes => s.pushRaw bytes
  | .fd n => some (s.writeFd n)

def putAll (s : Serializer) : List Item → Option Serializer
  | [] => some s
  | item :: items => (s.put item).bind fun s => putAll s items

theorem putAll_append (s : Serializer) (items more : List Item) :
    s.putAll (items ++ more) = (s.putAll items).bind fun s => s.putAll more := by
  induction items generalizing s with
  | nil => rfl
  | cons item items ih =>
    rw [List.cons_append, putAll, putAll]
    cases s.put item with
    | none => rfl
    | some t => exact ih t

mutual

/-- Only the items of a tree matter to the serializer, not the hooks they come from. -/
theorem write_eq (s : Serializer) : ∀ tree : Tree, s.write tree = s.putAll tree.items
  | .pod bytes => by simp [write, Tree.items, putAll, put]
  | .podArray elements => by simp [write, Tree.items, putAll, put]
  | .hooked calls => by rw [write, Tree.items, writeAll_eq s calls]
  | .hookedArray elements => by rw [write, Tree.items, writeAll_eq s elements]
  | .fd n => by simp [write, Tree.items, putAll, put]

theorem writeAll_eq (s : Serializer) :
    ∀ trees : List Tree, s.writeAll trees = s.putAll (itemsAll trees)
  | [] => rfl
  | tree :: trees => by
    rw [writeAll, itemsAll, putAll_append, write_eq s tree]
    cases s.putAll tree.items with
    | none => rfl
    | some t => exact writeAll_eq t trees

end

/-- The first pass adds up what the second one is going to need, modulo `2^64`. -/
theorem putAll_sizing (items : List Item) {offset : ℕ} (h : offset < 2 ^ 64) (fds : List ℤ) :
    putAll ⟨none, offset, fds⟩ items =
      some ⟨none, (offset + (bytesOf items).length) % 2 ^ 64, fds ++ fdsOf items⟩ := by
  induction items generalizing offset fds with
  | nil =>
    rw [bytesOf, fdsOf, List.length_nil, Nat.add_zero, List.append_nil, Nat.mod_eq_of_lt h]
    rfl
  | cons item items ih =>
    cases item with
    | raw bytes =>
      have hput : put ⟨none, offset, fds⟩ (.raw bytes) =
          some ⟨none, (offset + bytes.length) % 2 ^ 64, fds⟩ := rfl
      rw [putAll, hput, Option.bind_some, ih (Nat.mod_lt _ (by decide)), bytesOf, fdsOf,
        List.length_append, Nat.mod_add_mod, Nat.add_assoc]
    | fd n =>
      have hput : put ⟨none, offset, fds⟩ (.fd n) = some ⟨none, offset, fds ++ [n]⟩ := rfl
      rw [putAll, hput, Option.bind_some, ih h, bytesOf, fdsOf, List.append_assoc,
        List.singleton_append]

theorem overwrite_next (done bytes : Bytes) (n : ℕ) (h : bytes.length ≤ n) :
    overwrite (done.map some ++ List.replicate n none) done.length bytes =
      some ((done ++ bytes).map some ++ List.replicate (n - bytes.length) none) := by
  have hl : done.length + bytes.length ≤
      (done.map some ++ List.replicate n (none : Option UInt8)).length := by
    simpa using h
  have ht : (done.map some ++ List.replicate n (none : Option UInt8)).take done.length =
      done.map some := List.take_left' (by simp)
  have hd : (done.map some ++ List.replicate n (none : Option UInt8)).drop
      (done.length + bytes.length) = List.replicate (n - bytes.length) none := by
    rw [List.drop_append, List.drop_eq_nil_of_le (by simp)]
    simp
  rw [overwrite, if_pos hl, ht, hd, List.map_append]

/-- A buffer that is filled up to `offset`, with `n` cells left. -/
def filled (done : Bytes) (n : ℕ) (fds : List ℤ) : Serializer :=
  ⟨some (done.map some ++ List.replicate n none), done.length, fds⟩

theorem put_raw_filled {done bytes : Bytes} {n : ℕ} (h : bytes.length ≤ n)
    (hn : done.length + n < 2 ^ 64) (fds : List ℤ) :
    (filled done n fds).put (.raw bytes) =
      some (filled (done ++ bytes) (n - bytes.length) fds) := by
  have hmod : (done.length + bytes.length) % 2 ^ 64 = done.length + bytes.length :=
    Nat.mod_eq_of_lt (by omega)
  simp only [put, pushRaw, filled, hmod, overwrite_next done bytes n h, Option.bind_eq_bind,
    Option.bind_some, Option.pure_def, List.length_append]

theorem put_fd_filled (done : Bytes) (n : ℕ) (fds : List ℤ) (m : ℤ) :
    (filled done n fds).put (.fd m) = some (filled done n (fds ++ [m])) := rfl

/-- The second pass fills the buffer from the left, as long as there is room. -/
theorem putAll_writing (items : List Item) {done : Bytes} {n : ℕ} (fds : List ℤ)
    (h : (bytesOf items).length ≤ n) (hn : done.length + n < 2 ^ 64) :
    (filled done n fds).putAll items =
      some (filled (done ++ bytesOf items) (n - (bytesOf items).length) (fds ++ fdsOf items)) := by
  induction items generalizing done n fds with
  | nil => simp [putAll, bytesOf, fdsOf]
  | cons item items ih =>
    cases item with
    | raw bytes =>
      simp only [bytesOf, List.length_append] at h
      have hdone : (done ++ bytes).length + (n - bytes.length) < 2 ^ 64 := by
        rw [List.length_append]
        omega
      rw [putAll, put_raw_filled (by omega) hn, Option.bind_some, ih fds (by omega) hdone]
      simp [bytesOf, fdsOf, Nat.sub_sub]
    | fd m =>
      rw [putAll, put_fd_filled, Option.bind_some, ih (fds ++ [m]) h hn]
      simp [bytesOf, fdsOf]

/-- If there is too little room, some `memcpy` leaves the buffer before the offset can wrap. -/
theorem putAll_overrun (items : List Item) {done : Bytes} {n : ℕ} (fds : List ℤ)
    (h : n < (bytesOf items).length) (hn : done.length + n < 2 ^ 64) :
    (filled done n fds).putAll items = none := by
  induction items generalizing done n fds with
  | nil => exact absurd h (Nat.not_lt_zero n)
  | cons item items ih =>
    cases item with
    | raw bytes =>
      by_cases hfits : bytes.length ≤ n
      · simp only [bytesOf, List.length_append] at h
        have hdone : (done ++ bytes).length + (n - bytes.length) < 2 ^ 64 := by
          rw [List.length_append]
          omega
        rw [putAll, put_raw_filled hfits hn, Option.bind_some, ih fds (by omega) hdone]
      · have hover : overwrite (done.map some ++ List.replicate n none) done.length bytes =
            none := by
          rw [overwrite, if_neg (by simpa using hfits)]
        simp [putAll, put, pushRaw, filled, hover]
    | fd m =>
      rw [putAll, put_fd_filled, Option.bind_some]
      exact ih (fds ++ [m]) h hn

theorem write_sizing (tree : Tree) :
    write ⟨none, 0, []⟩ tree = some ⟨none, tree.bytes.length % 2 ^ 64, tree.fds⟩ := by
  rw [write_eq, putAll_sizing _ (by decide)]
  simp [Tree.bytes, Tree.fds]

theorem allocate_sized {size : ℕ} (h : size < 2 ^ 63) (fds : List ℤ) :
    allocate ⟨none, size, fds⟩ = some (filled [] size fds) := by
  rw [allocate, if_pos h]
  rfl

theorem write_writing {tree : Tree} (h : tree.bytes.length < 2 ^ 63) :
    (filled [] tree.bytes.length tree.fds).write tree =
      some (filled tree.bytes 0 (tree.fds ++ tree.fds)) := by
  have hn : ([] : Bytes).length + tree.bytes.length < 2 ^ 64 := by
    rw [List.length_nil]
    omega
  have h := putAll_writing tree.items tree.fds le_rfl hn
  rw [Nat.sub_self, List.nil_append] at h
  rw [write_eq]
  exact h

end Serializer

/-- Every byte once, every descriptor twice. -/
theorem serialize_of_lt {tree : Tree} (h : tree.bytes.length < 2 ^ 63) :
    serialize tree = some ⟨tree.bytes.map some, tree.bytes.length, tree.fds ++ tree.fds⟩ := by
  have hmod : tree.bytes.length % 2 ^ 64 = tree.bytes.length := Nat.mod_eq_of_lt (by omega)
  rw [serialize, Serializer.run, Serializer.write_sizing, hmod, Option.bind_eq_bind,
    Option.bind_some, Serializer.allocate_sized h, Option.bind_eq_bind, Option.bind_some,
    Serializer.write_writing h]
  simp [Serializer.filled]

/-- Either there is no buffer of the size that was added up, or it is too small. -/
theorem serialize_of_le {tree : Tree} (h : 2 ^ 63 ≤ tree.bytes.length) : serialize tree = none := by
  rw [serialize, Serializer.run, Serializer.write_sizing, Option.bind_eq_bind, Option.bind_some]
  by_cases hsize : tree.bytes.length % 2 ^ 64 < 2 ^ 63
  · have hlt : tree.bytes.length % 2 ^ 64 < tree.bytes.length := by omega
    rw [Serializer.allocate_sized hsize, Option.bind_eq_bind, Option.bind_some,
      Serializer.write_eq, Serializer.putAll_overrun _ _ hlt (by simpa using by omega)]
    rfl
  · rw [Serializer.allocate, if_neg hsize]
    rfl

theorem serialize_eq (tree : Tree) :
    serialize tree = if tree.bytes.length < 2 ^ 63 then
      some ⟨tree.bytes.map some, tree.bytes.length, tree.fds ++ tree.fds⟩ else none := by
  split
  · next h => exact serialize_of_lt h
  · next h => exact serialize_of_le (by omega)

theorem serialize_eq_some_iff {tree : Tree} {archive : Archive} :
    serialize tree = some archive ↔ tree.bytes.length < 2 ^ 63 ∧
      archive = ⟨tree.bytes.map some, tree.bytes.length, tree.fds ++ tree.fds⟩ := by
  rw [serialize_eq]
  split
  · next h => rw [Option.some.injEq, eq_comm, and_iff_right h]
  · next h => exact iff_of_false nofun fun hs => h hs.1

/-- Both passes append to `fds_`, so a tree that is archived, as all are that can be, has the
descriptors it wrote in the archive exactly if it wrote none. -/
theorem fds_archived_iff (tree : Tree) :
    ((∃ archive, serialize tree = some archive) ↔ tree.bytes.length < 2 ^ 63) ∧
    ∀ archive, serialize tree = some archive → archive.fds = tree.fds ++ tree.fds ∧
      (archive.fds = tree.fds ↔ tree.fds = []) := by
  constructor
  · simp [serialize_eq_some_iff]
  · intro archive h
    obtain ⟨-, rfl⟩ := serialize_eq_some_iff.mp h
    simp

/-- A hook that writes one descriptor between two items. -/
theorem fd_archived_twice :
    (serialize (.hooked [.pod [1], .fd 5, .pod [2]])).map Archive.fds = some [5, 5] ∧
    (serialize (.hooked [.pod [1], .fd 5, .pod [2]])).map Archive.fds ≠
      some (Tree.hooked [.pod [1], .fd 5, .pod [2]]).fds := by
  decide

/-- The archive depends on the bytes and descriptors of a tree only. -/
theorem serialize_congr {tree more : Tree} (hb : tree.bytes = more.bytes)
    (hf : tree.fds = more.fds) : serialize tree = serialize more := by
  rw [serialize_eq, serialize_eq, hb, hf]

/-- Among the other calls of a hook, an array is written like its elements one by one. -/
theorem serialize_podArray (calls more : List Tree) (elements : List Bytes) :
    serialize (.hooked (calls ++ .podArray elements :: more)) =
      serialize (.hooked (calls ++ elements.map .pod ++ more)) := by
  apply serialize_congr
  · simp [Function.comp_def]
  · simp [Function.comp_def]

theorem serialize_hookedArray (calls more elements : List Tree) :
    serialize (.hooked (calls ++ .hookedArray elements :: more)) =
      serialize (.hooked (calls ++ elements ++ more)) := by
  apply serialize_congr
  · simp
  · simp

/-- The serializer in front of any item of the writing pass: what is there has been written, and
the rest still fits. -/
theorem Serializer.putAll_prefix {tree : Tree} {pre post : List Item} {bytes : Bytes}
    (h : tree.items = pre ++ .raw bytes :: post) (hl : tree.bytes.length < 2 ^ 63) :
    ∃ s, (Serializer.filled [] tree.bytes.length tree.fds).putAll pre = some s ∧
      s.offset + bytes.length ≤ tree.bytes.length := by
  have hb : tree.bytes = bytesOf pre ++ (bytes ++ bytesOf post) := by
    rw [Tree.bytes, h, Tree.bytesOf_append, bytesOf]
  have hlength := congrArg List.length hb
  simp only [List.length_append] at hlength
  refine ⟨_, putAll_writing pre tree.fds (by omega) (by simpa using by omega), ?_⟩
  simp only [Serializer.filled, List.nil_append]
  omega

/-- The two passes over a tree agree: the writing pass needs exactly what the sizing pass has added
up, every `memcpy` of it stays inside the buffer and no cell is left over. -/
structure PassesAgree (tree : Tree) (sized start written : Serializer) (archive : Archive) :
    Prop where
  sizing : Serializer.write ⟨none, 0, []⟩ tree = some sized
  allocated : sized.allocate = some start
  writing : start.write tree = some written
  items : start.write tree = start.putAll tree.items
  result : serialize tree = some archive
  sizedOffset : sized.offset = archive.length
  writtenOffset : written.offset = archive.length
  length : archive.data.length = archive.length
  inside : ∀ pre bytes post, tree.items = pre ++ .raw bytes :: post →
    ∃ s, start.putAll pre = some s ∧ s.offset + bytes.length ≤ archive.length
  data : archive.data = (bytesOf tree.items).map some

theorem passesAgree_of_lt {tree : Tree} (h : tree.bytes.length < 2 ^ 63) :
    ∃ sized start written archive, PassesAgree tree sized start written archive := by
  have hmod : tree.bytes.length % 2 ^ 64 = tree.bytes.length := Nat.mod_eq_of_lt (by omega)
  have hsizing := Serializer.write_sizing tree
  rw [hmod] at hsizing
  exact ⟨_, _, _, _, {
    sizing := hsizing
    allocated := Serializer.allocate_sized h tree.fds
    writing := Serializer.write_writing h
    items := Serializer.write_eq _ tree
    result := serialize_of_lt h
    sizedOffset := rfl
    writtenOffset := rfl
    length := List.length_map ..
    inside := fun pre bytes post hitems => Serializer.putAll_prefix hitems h
    data := rfl }⟩

/-- The two passes agree on a tree, whatever the nesting of its hooks and arrays, exactly if it
writes less than `2^63` bytes. Arrays are written like their elements in any case. -/
theorem passes_agree_iff (tree : Tree) :
    ((∃ sized start written archive, PassesAgree tree sized start written archive) ↔
      tree.bytes.length < 2 ^ 63) ∧
    (∀ calls more elements, serialize (.hooked (calls ++ .podArray elements :: more)) =
      serialize (.hooked (calls ++ elements.map .pod ++ more))) ∧
    (∀ calls more elements, serialize (.hooked (calls ++ .hookedArray elements :: more)) =
      serialize (.hooked (calls ++ elements ++ more))) := by
  refine ⟨⟨?_, passesAgree_of_lt⟩, serialize_podArray, serialize_hookedArray⟩
  rintro ⟨sized, start, written, archive, h⟩
  exact (serialize_eq_some_iff.mp h.result).1

theorem length_bytes_replicate (n m : ℕ) (byte : UInt8) :
    (Tree.hooked (List.replicate n (.pod (List.replicate m byte)))).bytes.length = n * m := by
  simp

/-- A hook that writes `2^40` bytes `2^24` times: the sum of the sizing pass is zero, and the first
write of the other pass is already outside the buffer. -/
theorem sizing_wraps :
    let tree := Tree.hooked (List.replicate (2 ^ 24) (.pod (List.replicate (2 ^ 40) 0)))
    (Serializer.write ⟨none, 0, []⟩ tree).map Serializer.offset = some 0 ∧
    serialize tree = none ∧
    ¬ ∃ sized start written archive, PassesAgree tree sized start written archive := by
  intro tree
  have hlength : tree.bytes.length = 2 ^ 24 * 2 ^ 40 := length_bytes_replicate _ _ _
  have hnone : serialize tree = none := serialize_of_le (by rw [hlength]; decide)
  refine ⟨?_, hnone, ?_⟩
  · rw [Serializer.write_sizing, hlength]
    rfl
  · rintro ⟨sized, start, written, archive, h⟩
    exact absurd (h.result.symm.trans hnone) (by simp)

end Wetnork.Ipc
