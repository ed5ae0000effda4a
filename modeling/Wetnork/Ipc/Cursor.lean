import Wetnork.Ipc.RoundTrip

/-! Reading a sequence of items off the middle of an archive: what comes back, and where the two
cursors end up. -/
namespace Wetnork.Ipc

/-- What one call of `read`, array `read` or `readFd` is for. An address is constructed in storage
that held `memory`. A class has a hook that makes further calls, and a default constructor and a
destructor that are trivial, or not. -/
inductive Shape where
  | pod (size : ℕ)
  | podArray (size count : ℕ)
  | ipAddress (memory : IPAddress.Storage)
  | fd
  | hooked (trivial : Bool) (fields : List Shape)

mutual

/-- The items of a shape. -/
inductive Value : Shape → Type where
  | pod {size : ℕ} (item : { bytes : Bytes // bytes.length = size }) : Value (.pod size)
  | podArray {size count : ℕ} (items : Hooks.PodArray size count) : Value (.podArray size count)
  | ipAddress {memory : IPAddress.Storage} (ip : IPAddress) : Value (.ipAddress memory)
  | fd (n : ℤ) : Value .fd
  | hooked {trivial : Bool} {fields : List Shape} (values : Values fields) :
      Value (.hooked trivial fields)

/-- A sequence of items, one of each shape. -/
inductive Values : List Shape → Type where
  | nil : Values []
  | cons {shape : Shape} {shapes : List Shape} (value : Value shape) (values : Values shapes) :
      Values (shape :: shapes)

end

mutual

/-- An item as its hooks present it to the serializer. -/
def Value.tree (order : ByteOrder) : {shape : Shape} → Value shape → Tree
  | _, .pod item => .pod item.1
  | _, .podArray items => .podArray items.1
  | .ipAddress memory, .ipAddress ip => (Hooks.ipAddress order memory).serialize ip
  | _, .fd n => .fd n
  | _, .hooked values => .hooked (values.trees order)

def Values.trees (order : ByteOrder) : {shapes : List Shape} → Values shapes → List Tree
  | _, .nil => []
  | _, .cons value values => value.tree order :: values.trees order

end

mutual

/-- An item by the calls of its hook, made on storage of the caller's. -/
def Shape.decode (order : ByteOrder) : (shape : Shape) → Reader (Value shape)
  | .pod size => (Hooks.pod size).deserialize.bind fun item => .done (.pod item)
  | .podArray size count =>
    (Hooks.podArray size count).deserialize.bind fun items => .done (.podArray items)
  | .ipAddress memory =>
    (Hooks.ipAddress order memory).deserialize.bind fun ip => .done (.ipAddress ip)
  | .fd => Hooks.fd.deserialize.bind fun n => .done (.fd n)
  | .hooked _ fields => (decodeAll order fields).bind fun values => .done (.hooked values)

/-- The calls for a sequence, one after the other. -/
def decodeAll (order : ByteOrder) : (shapes : List Shape) → Reader (Values shapes)
  | [] => .done .nil
  | shape :: shapes =>
    (shape.decode order).bind fun value => (decodeAll order shapes).bind fun values =>
      .done (.cons value values)

end

mutual

/-- The call that mirrors the one an item was written by, if there is such a program: `pop` of a
class puts the item into a union first, which has to be constructed and destroyed. -/
def Shape.read (order : ByteOrder) : (shape : Shape) → Option (Reader (Value shape))
  | .pod size => some ((Shape.pod size).decode order)
  | .podArray size count => some ((Shape.podArray size count).decode order)
  | .ipAddress _ => none
  | .fd => some (Shape.fd.decode order)
  | .hooked trivial fields =>
    if trivial then
      (readAll order fields).map fun reader => reader.bind fun values => .done (.hooked values)
    else
      none

def readAll (order : ByteOrder) : (shapes : List Shape) → Option (Reader (Values shapes))
  | [] => some (.done .nil)
  | shape :: shapes =>
    (shape.read order).bind fun first => (readAll order shapes).map fun rest =>
      first.bind fun value => rest.bind fun values => .done (.cons value values)

end

mutual

/-- Neither an address nor a class of which there can be no member in the union. -/
def Shape.readable : Shape → Bool
  | .pod _ => true
  | .podArray _ _ => true
  | .ipAddress _ => false
  | .fd => true
  | .hooked trivial fields => trivial && readableAll fields

def readableAll : List Shape → Bool
  | [] => true
  | shape :: shapes => shape.readable && readableAll shapes

end

mutual

/-- Reading, where it can be instantiated, is calling the hooks. -/
theorem Shape.read_eq (order : ByteOrder) : ∀ shape : Shape,
    shape.read order = if shape.readable then some (shape.decode order) else none
  | .pod _ => rfl
  | .podArray _ _ => rfl
  | .ipAddress _ => rfl
  | .fd => rfl
  | .hooked trivial fields => by
    rw [Shape.read, readAll_eq order fields, Shape.readable, Shape.decode]
    cases trivial <;> cases readableAll fields <;> rfl

theorem readAll_eq (order : ByteOrder) : ∀ shapes : List Shape,
    readAll order shapes = if readableAll shapes then some (decodeAll order shapes) else none
  | [] => rfl
  | shape :: shapes => by
    rw [readAll, shape.read_eq order, readAll_eq order shapes, readableAll, decodeAll]
    cases shape.readable <;> cases readableAll shapes <;> rfl

end

theorem readAll_eq_some_iff {order : ByteOrder} {shapes : List Shape}
    {reader : Reader (Values shapes)} :
    readAll order shapes = some reader ↔
      readableAll shapes = true ∧ reader = decodeAll order shapes := by
  rw [readAll_eq]
  split
  · next h => rw [Option.some.injEq, eq_comm, and_iff_right h]
  · next h => exact iff_of_false nofun fun hr => h hr.1

mutual

/-- Addresses are compared by `operator==`, everything else bit by bit. -/
def Value.Same : {shape : Shape} → Value shape → Value shape → Prop
  | _, .pod item, .pod other => item = other
  | _, .podArray items, .podArray others => items = others
  | _, .ipAddress ip, .ipAddress other => ip.equal other
  | _, .fd n, .fd m => n = m
  | _, .hooked values, .hooked others => values.Same others

def Values.Same : {shapes : List Shape} → Values shapes → Values shapes → Prop
  | _, .nil, .nil => True
  | _, .cons value values, .cons other others => value.Same other ∧ values.Same others

end

namespace Reader

variable {α β : Type} {reader : Reader α} {next : α → Reader β} {bytes more : Bytes}
  {fds others : List ℤ} {x : α} {y : β}

/-- Two readers in sequence read two encodings in sequence. -/
theorem parse_bind_append (hx : reader.parse bytes fds = some (x, [], []))
    (hy : (next x).parse more others = some (y, [], [])) :
    (reader.bind next).parse (bytes ++ more) (fds ++ others) = some (y, [], []) := by
  have hp := parse_append more others hx
  rw [parse_bind, hp]
  exact hy

theorem parse_bind_done (hx : reader.parse bytes fds = some (x, [], [])) (g : α → β) :
    (reader.bind fun x => .done (g x)).parse bytes fds = some (g x, [], []) := by
  rw [parse_bind, hx]
  rfl

end Reader

/-- What a sequence of write calls produces. -/
def Values.tree {shapes : List Shape} (order : ByteOrder) (values : Values shapes) : Tree :=
  .hooked (values.trees order)

theorem Values.bytes_cons (order : ByteOrder) {shape : Shape} {shapes : List Shape}
    (value : Value shape) (values : Values shapes) :
    ((Values.cons value values).tree order).bytes =
      (value.tree order).bytes ++ (values.tree order).bytes := by
  simp [Values.tree, Values.trees, Tree.bytes, Tree.items, itemsAll, Tree.bytesOf_append]

theorem Values.fds_cons (order : ByteOrder) {shape : Shape} {shapes : List Shape}
    (value : Value shape) (values : Values shapes) :
    ((Values.cons value values).tree order).fds =
      (value.tree order).fds ++ (values.tree order).fds := by
  simp [Values.tree, Values.trees, Tree.fds, Tree.items, itemsAll, Tree.fdsOf_append]

mutual

/-- An item is read off its own encoding, with nothing left over. -/
theorem Value.parse_tree (order : ByteOrder) : ∀ {shape : Shape} (value : Value shape),
    ∃ result, (shape.decode order).parse (value.tree order).bytes (value.tree order).fds =
      some (result, [], []) ∧ result.Same value
  | .pod size, .pod item => by
    obtain ⟨result, hp, he⟩ := Hooks.pod_inOrder size item
    exact ⟨.pod result, Reader.parse_bind_done hp _, he⟩
  | .podArray size count, .podArray items => by
    obtain ⟨result, hp, he⟩ := Hooks.podArray_inOrder size count items
    exact ⟨.podArray result, Reader.parse_bind_done hp _, he⟩
  | .ipAddress memory, .ipAddress ip => by
    obtain ⟨result, hp, he⟩ := Hooks.ipAddress_inOrder order memory ip
    exact ⟨.ipAddress result, Reader.parse_bind_done hp _, he⟩
  | .fd, .fd n => by
    obtain ⟨result, hp, he⟩ := Hooks.fd_inOrder n
    exact ⟨.fd result, Reader.parse_bind_done hp _, he⟩
  | .hooked _ fields, .hooked values => by
    obtain ⟨result, hp, he⟩ := Values.parse_tree order values
    exact ⟨.hooked result, Reader.parse_bind_done hp _, he⟩

theorem Values.parse_tree (order : ByteOrder) : ∀ {shapes : List Shape} (values : Values shapes),
    ∃ result, (decodeAll order shapes).parse (values.tree order).bytes (values.tree order).fds =
      some (result, [], []) ∧ result.Same values
  | _, .nil => ⟨.nil, rfl, trivial⟩
  | _, .cons value values => by
    obtain ⟨first, hp, he⟩ := Value.parse_tree order value
    obtain ⟨rest, hq, hr⟩ := Values.parse_tree order values
    refine ⟨.cons first rest, ?_, he, hr⟩
    rw [Values.bytes_cons, Values.fds_cons]
    exact Reader.parse_bind_append hp (Reader.parse_bind_done hq _)

end

namespace Deserializer

variable {α : Type} {archive : Archive} {b f : ℕ} {bytes item : Bytes} {fds : List ℤ}

theorem popRaw_prefix (h : (item.map some).IsPrefix (archive.data.drop b)) (f : ℕ) :
    popRaw ⟨archive, b, f⟩ item.length = .ok (item, ⟨archive, b + item.length, f⟩) := by
  obtain ⟨cells, hc⟩ := h
  have hw : (archive.data.drop b).take item.length = item.map some := by
    rw [← hc, List.take_left' (by simp)]
  simp [popRaw, hw]

theorem readFd_prefix {n : ℤ} (h : (n :: fds).IsPrefix (archive.fds.drop f)) (b : ℕ) :
    readFd ⟨archive, b, f⟩ = .ok (n, ⟨archive, b, f + 1⟩) := by
  obtain ⟨others, ho⟩ := h
  have hn : archive.fds[f]? = some n := by
    have := congrArg (·[0]?) ho
    simpa using this.symm
  simp [readFd, hn]

/-- What has been read moves the cursor to what follows it. -/
theorem isPrefix_drop {γ : Type} {xs ys l : List γ} (h : (xs ++ ys).IsPrefix (l.drop b)) :
    ys.IsPrefix (l.drop (b + xs.length)) := by
  obtain ⟨rest, hr⟩ := h
  refine ⟨rest, ?_⟩
  rw [← List.drop_drop, ← hr, List.append_assoc, List.drop_left]

/-- A reader that takes all of two streams takes them off any archive that holds them behind the
cursors, whatever else is there, and leaves the cursors behind them. -/
theorem run_of_parse (reader : Reader α) {y : α}
    (h : reader.parse bytes fds = some (y, [], []))
    (hb : (bytes.map some).IsPrefix (archive.data.drop b))
    (hf : fds.IsPrefix (archive.fds.drop f)) :
    run reader ⟨archive, b, f⟩ = .ok (y, ⟨archive, b + bytes.length, f + fds.length⟩) := by
  induction reader generalizing bytes fds b f with
  | done result =>
    obtain ⟨rfl, rfl, rfl⟩ : result = y ∧ bytes = [] ∧ fds = [] := by
      simpa [Reader.parse] using h
    rfl
  | undefined => cases h
  | raw length next ih =>
    obtain ⟨item, more, rfl, rfl, hn⟩ := Reader.parse_raw_eq_some h
    rw [List.map_append] at hb
    have hitem := (List.prefix_append _ _).trans hb
    have hmore := isPrefix_drop hb
    rw [List.length_map] at hmore
    simp only [run, popRaw_prefix hitem f]
    rw [ih item hn hmore hf, List.length_append, Nat.add_assoc]
  | fd next ih =>
    cases fds with
    | nil => cases h
    | cons n fds =>
      have hcons : ([n] ++ fds).IsPrefix (archive.fds.drop f) := hf
      have hmore : fds.IsPrefix (archive.fds.drop (f + 1)) := isPrefix_drop hcons
      simp only [run, readFd_prefix hf b]
      rw [ih n h hb hmore, List.length_cons, Nat.add_assoc, Nat.add_comm 1]

end Deserializer

end Wetnork.Ipc
