import Wetnork.Ipc.Cursor

/-! What a deserializer accepts: the reads of a sequence go through exactly on encodings of it. -/
namespace Wetnork.Ipc

namespace Deserializer

variable {α β : Type} {archive : Archive} {b f : ℕ} {d : Deserializer} {y : α} {bytes : Bytes}
  {n : ℤ}

theorem map_some_filterMap {cells : List (Option UInt8)} (h : none ∉ cells) :
    (cells.filterMap id).map some = cells := by
  induction cells with
  | nil => rfl
  | cons cell cells ih =>
    rw [List.mem_cons, not_or] at h
    obtain ⟨byte, rfl⟩ := Option.ne_none_iff_exists'.mp (Ne.symm h.1)
    exact congrArg (some byte :: ·) (ih h.2)

theorem popRaw_ok {length : ℕ} (h : popRaw ⟨archive, b, f⟩ length = .ok (bytes, d)) :
    bytes.length = length ∧ (bytes.map some).IsPrefix (archive.data.drop b) ∧
      d = ⟨archive, b + length, f⟩ := by
  simp only [popRaw] at h
  split at h
  · next hw =>
    obtain ⟨rfl, rfl⟩ := Prod.mk.inj (Except.ok.inj h)
    have hcells := map_some_filterMap hw.2
    refine ⟨?_, ?_, rfl⟩
    · rw [← List.length_map some, hcells]
      exact hw.1
    · rw [hcells]
      exact List.take_prefix _ _
  · cases h

theorem readFd_ok (h : readFd ⟨archive, b, f⟩ = .ok (n, d)) :
    [n].IsPrefix (archive.fds.drop f) ∧ d = ⟨archive, b, f + 1⟩ := by
  simp only [readFd] at h
  split at h
  · next m hm =>
    obtain ⟨rfl, rfl⟩ := Prod.mk.inj (Except.ok.inj h)
    obtain ⟨hlt, rfl⟩ := List.getElem?_eq_some_iff.mp hm
    refine ⟨⟨archive.fds.drop (f + 1), ?_⟩, rfl⟩
    exact (List.drop_eq_getElem_cons hlt).symm
  · cases h

theorem isPrefix_append {γ : Type} {xs ys l : List γ} (hx : xs.IsPrefix (l.drop b))
    (hy : ys.IsPrefix (l.drop (b + xs.length))) : (xs ++ ys).IsPrefix (l.drop b) := by
  obtain ⟨rest, hr⟩ := hx
  rw [← List.drop_drop, ← hr, List.drop_left] at hy
  rw [← hr, List.prefix_append_right_inj]
  exact hy

/-- A hook that returns has taken what it parsed off the front of the two streams. -/
theorem parse_of_run (reader : Reader α) (h : run reader ⟨archive, b, f⟩ = .ok (y, d)) :
    ∃ bytes fds, reader.parse bytes fds = some (y, [], []) ∧
      (bytes.map some).IsPrefix (archive.data.drop b) ∧ fds.IsPrefix (archive.fds.drop f) ∧
      d = ⟨archive, b + bytes.length, f + fds.length⟩ := by
  induction reader generalizing b f with
  | done result =>
    obtain ⟨rfl, rfl⟩ := Prod.mk.inj (Except.ok.inj h)
    exact ⟨[], [], rfl, List.nil_prefix, List.nil_prefix, rfl⟩
  | undefined => cases h
  | raw length next ih =>
    simp only [run] at h
    split at h
    · next item d' hp =>
      obtain ⟨hl, hitem, rfl⟩ := popRaw_ok hp
      obtain ⟨bytes, fds, hparse, hb, hf, rfl⟩ := ih item h
      refine ⟨item ++ bytes, fds, ?_, ?_, hf, ?_⟩
      · rw [Reader.parse_raw_append _ hl]
        exact hparse
      · rw [List.map_append]
        apply isPrefix_append hitem
        rw [List.length_map, hl]
        exact hb
      · rw [List.length_append, hl, Nat.add_assoc]
    · cases h
  | fd next ih =>
    simp only [run] at h
    split at h
    · next n d' hn =>
      obtain ⟨hfirst, rfl⟩ := readFd_ok hn
      obtain ⟨bytes, fds, hparse, hb, hf, rfl⟩ := ih n h
      refine ⟨bytes, n :: fds, hparse, hb, isPrefix_append hfirst hf, ?_⟩
      rw [List.length_cons, Nat.add_assoc, Nat.add_comm 1]
    · cases h

end Deserializer

mutual

/-- Addresses are equal to themselves, everything else anyway. -/
theorem Value.same_refl : ∀ {shape : Shape} (value : Value shape), value.Same value
  | _, .pod _ => rfl
  | _, .podArray _ => rfl
  | _, .ipAddress _ => IPAddress.equal_iff.mpr ⟨rfl, rfl⟩
  | _, .fd _ => rfl
  | _, .hooked values => Values.same_refl values

theorem Values.same_refl : ∀ {shapes : List Shape} (values : Values shapes), values.Same values
  | _, .nil => trivial
  | _, .cons value values => ⟨value.same_refl, values.same_refl⟩

end

namespace Reader

variable {α β : Type} {reader : Reader α} {next : α → Reader β} {bytes rest : Bytes}
  {fds left : List ℤ} {z : β}

theorem parse_bind_eq_some (h : (reader.bind next).parse bytes fds = some (z, rest, left)) :
    ∃ y more others, reader.parse bytes fds = some (y, more, others) ∧
      (next y).parse more others = some (z, rest, left) := by
  rw [parse_bind, Option.bind_eq_some_iff] at h
  obtain ⟨⟨y, more, others⟩, hy, hz⟩ := h
  exact ⟨y, more, others, hy, hz⟩

theorem parse_bind_done_eq_some {g : α → β}
    (h : (reader.bind fun x => .done (g x)).parse bytes fds = some (z, rest, left)) :
    ∃ y, g y = z ∧ reader.parse bytes fds = some (y, rest, left) := by
  obtain ⟨y, more, others, hy, hz⟩ := parse_bind_eq_some h
  obtain ⟨rfl, rfl, rfl⟩ : g y = z ∧ more = rest ∧ others = left := by simpa [parse] using hz
  exact ⟨y, rfl, hy⟩

end Reader

mutual

/-- An item is read only off its encoding. -/
theorem Value.tree_of_parse (order : ByteOrder) : ∀ {shape : Shape} (value : Value shape)
    {result : Value shape} {bytes rest : Bytes} {fds left : List ℤ},
    (shape.decode order).parse bytes fds = some (result, rest, left) → result.Same value →
    bytes = (value.tree order).bytes ++ rest ∧ fds = (value.tree order).fds ++ left
  | .pod size, .pod item, _, _, _, _, _, hp, hs => by
    rw [Shape.decode] at hp
    obtain ⟨y, rfl, hy⟩ := Reader.parse_bind_done_eq_some hp
    exact Hooks.pod_canonical size item y _ _ _ _ hy hs
  | .podArray size count, .podArray items, _, _, _, _, _, hp, hs => by
    rw [Shape.decode] at hp
    obtain ⟨y, rfl, hy⟩ := Reader.parse_bind_done_eq_some hp
    exact Hooks.podArray_canonical size count items y _ _ _ _ hy hs
  | .ipAddress memory, .ipAddress ip, _, _, _, _, _, hp, hs => by
    rw [Shape.decode] at hp
    obtain ⟨y, rfl, hy⟩ := Reader.parse_bind_done_eq_some hp
    exact Hooks.ipAddress_canonical order memory ip y _ _ _ _ hy hs
  | .fd, .fd n, _, _, _, _, _, hp, hs => by
    rw [Shape.decode] at hp
    obtain ⟨y, rfl, hy⟩ := Reader.parse_bind_done_eq_some hp
    exact Hooks.fd_canonical n y _ _ _ _ hy hs
  | .hooked _ fields, .hooked values, _, _, _, _, _, hp, hs => by
    rw [Shape.decode] at hp
    obtain ⟨y, rfl, hy⟩ := Reader.parse_bind_done_eq_some hp
    exact Values.tree_of_parse order values hy hs

theorem Values.tree_of_parse (order : ByteOrder) : ∀ {shapes : List Shape}
    (values : Values shapes) {result : Values shapes} {bytes rest : Bytes} {fds left : List ℤ},
    (decodeAll order shapes).parse bytes fds = some (result, rest, left) → result.Same values →
    bytes = (values.tree order).bytes ++ rest ∧ fds = (values.tree order).fds ++ left
  | _, .nil, .nil, _, _, _, _, hp, _ => by
    rw [decodeAll, Reader.parse] at hp
    obtain ⟨rfl, rfl⟩ := Prod.mk.inj (Prod.mk.inj (Option.some.inj hp)).2
    exact ⟨rfl, rfl⟩
  | _, .cons value values, _, _, _, _, _, hp, hs => by
    rw [decodeAll] at hp
    obtain ⟨first, more, others, hfirst, hp⟩ := Reader.parse_bind_eq_some hp
    obtain ⟨following, rfl, hfollowing⟩ := Reader.parse_bind_done_eq_some hp
    obtain ⟨rfl, rfl⟩ := Value.tree_of_parse order value hfirst hs.1
    obtain ⟨rfl, rfl⟩ := Values.tree_of_parse order values hfollowing hs.2
    rw [Values.bytes_cons, Values.fds_cons, List.append_assoc, List.append_assoc]
    exact ⟨rfl, rfl⟩

end

/-- What the write calls for a sequence produce lies behind the two cursors. -/
def Values.At {shapes : List Shape} (order : ByteOrder) (values : Values shapes)
    (archive : Archive) (byteOffset fdOffset : ℕ) : Prop :=
  ((values.tree order).bytes.map some).IsPrefix (archive.data.drop byteOffset) ∧
    (values.tree order).fds.IsPrefix (archive.fds.drop fdOffset)

section Sequences

variable {order : ByteOrder} {archive : Archive} {b f : ℕ} {d : Deserializer} {shape : Shape}
  {shapes : List Shape}

/-- The same of one item. -/
def Value.At (order : ByteOrder) (value : Value shape) (archive : Archive) (b f : ℕ) : Prop :=
  ((value.tree order).bytes.map some).IsPrefix (archive.data.drop b) ∧
    (value.tree order).fds.IsPrefix (archive.fds.drop f)

theorem Values.at_cons {value : Value shape} {values : Values shapes} :
    (Values.cons value values).At order archive b f ↔ value.At order archive b f ∧
      values.At order archive (b + (value.tree order).bytes.length)
        (f + (value.tree order).fds.length) := by
  rw [At, bytes_cons, fds_cons, List.map_append]
  constructor
  · rintro ⟨hb, hf⟩
    have hrest := Deserializer.isPrefix_drop hb
    rw [List.length_map] at hrest
    exact ⟨⟨(List.prefix_append _ _).trans hb, (List.prefix_append _ _).trans hf⟩, hrest,
      Deserializer.isPrefix_drop hf⟩
  · rintro ⟨⟨hb, hf⟩, hrest, hfds⟩
    refine ⟨Deserializer.isPrefix_append hb ?_, Deserializer.isPrefix_append hf hfds⟩
    rw [List.length_map]
    exact hrest

/-- A sequence that has been read has been written there. -/
theorem Values.at_of_run {result values : Values shapes}
    (h : Deserializer.run (decodeAll order shapes) ⟨archive, b, f⟩ = .ok (result, d))
    (hs : result.Same values) :
    values.At order archive b f ∧
      d = ⟨archive, b + (values.tree order).bytes.length, f + (values.tree order).fds.length⟩ := by
  obtain ⟨bytes, fds, hp, hb, hf, rfl⟩ := Deserializer.parse_of_run _ h
  obtain ⟨rfl, rfl⟩ := values.tree_of_parse order hp hs
  rw [List.append_nil] at hb hf
  rw [List.append_nil, List.append_nil]
  exact ⟨⟨hb, hf⟩, rfl⟩

theorem Values.run_of_at {values : Values shapes} (h : values.At order archive b f) :
    ∃ result, result.Same values ∧
      Deserializer.run (decodeAll order shapes) ⟨archive, b, f⟩ = .ok (result,
        ⟨archive, b + (values.tree order).bytes.length, f + (values.tree order).fds.length⟩) := by
  obtain ⟨result, hp, hs⟩ := values.parse_tree order
  exact ⟨result, hs, Deserializer.run_of_parse _ hp h.1 h.2⟩

end Sequences

mutual

/-- The calls that a read comes down to, with hooks replaced by the calls in them. -/
def Shape.calls : Shape → List Shape
  | .hooked _ fields => callsAll fields
  | .pod size => [.pod size]
  | .podArray size count => [.podArray size count]
  | .ipAddress memory => [.ipAddress memory]
  | .fd => [.fd]

def callsAll : List Shape → List Shape
  | [] => []
  | shape :: shapes => shape.calls ++ callsAll shapes

end

mutual

theorem Shape.not_hooked_of_calls : ∀ (shape : Shape) {call : Shape}, call ∈ shape.calls →
    ∀ trivial fields, call ≠ .hooked trivial fields
  | .hooked _ fields, _, h => not_hooked_of_callsAll fields h
  | .pod _, _, h => by simp [List.mem_singleton.mp h]
  | .podArray _ _, _, h => by simp [List.mem_singleton.mp h]
  | .ipAddress _, _, h => by simp [List.mem_singleton.mp h]
  | .fd, _, h => by simp [List.mem_singleton.mp h]

theorem not_hooked_of_callsAll : ∀ (shapes : List Shape) {call : Shape},
    call ∈ callsAll shapes → ∀ trivial fields, call ≠ .hooked trivial fields
  | [], _, h => absurd h List.not_mem_nil
  | shape :: shapes, _, h => (List.mem_append.mp h).elim shape.not_hooked_of_calls
      (not_hooked_of_callsAll shapes)

end

namespace Deserializer

variable {α β : Type} {order : ByteOrder} {archive : Archive} {b f : ℕ}

/-- Where a reader leaves the cursors, or how it fails. -/
def cursors (reader : Reader α) (d : Deserializer) : Except Fault Deserializer :=
  (run reader d).map Prod.snd

theorem run_bind (reader : Reader α) (next : α → Reader β) (d : Deserializer) :
    run (reader.bind next) d = (run reader d).bind fun y => run (next y.1) y.2 := by
  induction reader generalizing d with
  | done result => rfl
  | undefined => rfl
  | raw length rest ih =>
    simp only [Reader.bind, run]
    split
    · exact ih _ _
    · rfl
  | fd rest ih =>
    simp only [Reader.bind, run]
    split
    · exact ih _ _
    · rfl

theorem cursors_bind_done (reader : Reader α) (g : α → β) (d : Deserializer) :
    cursors (reader.bind fun x => .done (g x)) d = cursors reader d := by
  rw [cursors, run_bind, cursors]
  cases run reader d <;> rfl

theorem cursors_decodeAll_cons (shape : Shape) (shapes : List Shape) (d : Deserializer) :
    cursors (decodeAll order (shape :: shapes)) d =
      (cursors (shape.decode order) d).bind (cursors (decodeAll order shapes)) := by
  rw [decodeAll, cursors, run_bind, cursors]
  cases run (shape.decode order) d with
  | error fault => rfl
  | ok y => exact cursors_bind_done (decodeAll order shapes) (Values.cons y.1) y.2

theorem cursors_decodeAll_append (shapes others : List Shape) (d : Deserializer) :
    cursors (decodeAll order (shapes ++ others)) d =
      (cursors (decodeAll order shapes) d).bind (cursors (decodeAll order others)) := by
  induction shapes generalizing d with
  | nil => rfl
  | cons shape shapes ih =>
    rw [List.cons_append, cursors_decodeAll_cons, cursors_decodeAll_cons]
    cases cursors (shape.decode order) d with
    | error fault => rfl
    | ok d => exact ih d

theorem cursors_singleton (shape : Shape) (d : Deserializer) :
    cursors (decodeAll order [shape]) d = cursors (shape.decode order) d := by
  rw [cursors_decodeAll_cons]
  cases cursors (shape.decode order) d <;> rfl

end Deserializer

mutual

/-- Hooks do nothing but make the calls in them. -/
theorem Shape.cursors_calls (order : ByteOrder) : ∀ (shape : Shape) (d : Deserializer),
    Deserializer.cursors (decodeAll order shape.calls) d =
      Deserializer.cursors (shape.decode order) d
  | .hooked _ fields, d => by
    rw [Shape.calls, Shape.decode, Deserializer.cursors_bind_done]
    exact cursors_callsAll order fields d
  | .pod _, d => Deserializer.cursors_singleton _ d
  | .podArray _ _, d => Deserializer.cursors_singleton _ d
  | .ipAddress _, d => Deserializer.cursors_singleton _ d
  | .fd, d => Deserializer.cursors_singleton _ d

theorem cursors_callsAll (order : ByteOrder) : ∀ (shapes : List Shape) (d : Deserializer),
    Deserializer.cursors (decodeAll order (callsAll shapes)) d =
      Deserializer.cursors (decodeAll order shapes) d
  | [], _ => rfl
  | shape :: shapes, d => by
    rw [callsAll, Deserializer.cursors_decodeAll_append, Deserializer.cursors_decodeAll_cons,
      Shape.cursors_calls order shape d]
    cases Deserializer.cursors (shape.decode order) d with
    | error fault => rfl
    | ok d => exact cursors_callsAll order shapes d

end

section Calls

open Deserializer (cursors)

variable {order : ByteOrder} {archive : Archive} {b f : ℕ} {d : Deserializer} {shape : Shape}

/-- A call returns exactly if an item has been written there. -/
theorem cursors_ok_iff : cursors (shape.decode order) ⟨archive, b, f⟩ = .ok d ↔
    ∃ value : Value shape, value.At order archive b f ∧
      d = ⟨archive, b + (value.tree order).bytes.length, f + (value.tree order).fds.length⟩ := by
  constructor
  · intro h
    rw [cursors] at h
    cases hr : Deserializer.run (shape.decode order) ⟨archive, b, f⟩ with
    | error fault => simp [hr, Except.map] at h
    | ok y =>
      obtain ⟨value, d'⟩ := y
      obtain rfl : d' = d := by simpa [hr, Except.map] using h
      obtain ⟨bytes, fds, hp, hb, hf, rfl⟩ := Deserializer.parse_of_run _ hr
      obtain ⟨rfl, rfl⟩ := value.tree_of_parse order hp value.same_refl
      rw [List.append_nil] at hb hf
      rw [List.append_nil, List.append_nil]
      exact ⟨value, ⟨hb, hf⟩, rfl⟩
  · rintro ⟨value, ⟨hb, hf⟩, rfl⟩
    obtain ⟨result, hp, -⟩ := value.parse_tree order
    rw [cursors, Deserializer.run_of_parse _ hp hb hf]
    rfl

end Calls

/-- A reader that asks for no descriptor. -/
def Reader.Plain {α : Type} : Reader α → Prop
  | .done _ => True
  | .undefined => True
  | .raw _ next => ∀ bytes, (next bytes).Plain
  | .fd _ => False

theorem Deserializer.run_plain {α : Type} {reader : Reader α} (h : reader.Plain)
    (d : Deserializer) : run reader d ≠ .error .outOfRange := by
  induction reader generalizing d with
  | done result => simp [run]
  | undefined => simp [run]
  | raw length next ih =>
    simp only [run]
    split
    · exact ih _ (h _) _
    · next fault hf =>
      simp only [popRaw] at hf
      split at hf
      · cases hf
      · cases hf
        simp
  | fd next ih => exact h.elim

section OutOfRange

open Deserializer (cursors cursors_bind_done cursors_decodeAll_cons)

variable {order : ByteOrder} {archive : Archive} {b f : ℕ}

theorem cursors_plain {α : Type} {reader : Reader α} (h : reader.Plain) (d : Deserializer) :
    cursors reader d ≠ .error .outOfRange := by
  have hrun := Deserializer.run_plain h d
  rw [cursors]
  cases hr : Deserializer.run reader d with
  | ok y => simp [Except.map]
  | error fault =>
    rw [hr] at hrun
    simpa [Except.map] using hrun

/-- The only call that checks anything is that for a descriptor. -/
theorem outOfRange_call {call : Shape} (hc : ∀ trivial fields, call ≠ .hooked trivial fields) :
    cursors (call.decode order) ⟨archive, b, f⟩ = .error .outOfRange ↔
      call = .fd ∧ archive.fds.length ≤ f := by
  cases call with
  | hooked trivial fields => exact absurd rfl (hc trivial fields)
  | fd =>
    rw [Shape.decode, cursors_bind_done]
    cases hn : archive.fds[f]? with
    | none =>
      have hle := List.getElem?_eq_none_iff.mp hn
      simp [cursors, Hooks.fd, Deserializer.run, Deserializer.readFd, Except.map, hle]
    | some n =>
      have hlt := (List.getElem?_eq_some_iff.mp hn).1
      simp [cursors, Hooks.fd, Deserializer.run, Deserializer.readFd, Except.map, hlt]
  | pod size =>
    have hp : (Hooks.pod size).deserialize.Plain := by
      intro bytes
      dsimp only
      split <;> trivial
    rw [Shape.decode, cursors_bind_done]
    exact iff_of_false (cursors_plain hp _) (by simp)
  | podArray size count =>
    have hp : (Hooks.podArray size count).deserialize.Plain := by
      intro bytes
      dsimp only
      split <;> trivial
    rw [Shape.decode, cursors_bind_done]
    exact iff_of_false (cursors_plain hp _) (by simp)
  | ipAddress memory =>
    have hp : (Hooks.ipAddress order memory).deserialize.Plain := by
      intro family
      dsimp only
      split
      · exact fun _ => trivial
      · split
        · exact fun _ => trivial
        · trivial
    rw [Shape.decode, cursors_bind_done]
    exact iff_of_false (cursors_plain hp _) (by simp)

/-- There is a descriptor to be read, none is left, and everything before it has been written. -/
def RunsOut (order : ByteOrder) (calls : List Shape) (archive : Archive) (b f : ℕ) : Prop :=
  ∃ (before after : List Shape) (values : Values before), calls = before ++ .fd :: after ∧
    values.At order archive b f ∧ archive.fds.length ≤ f + (values.tree order).fds.length

theorem runsOut_cons {call : Shape} {calls : List Shape} :
    RunsOut order (call :: calls) archive b f ↔ (call = .fd ∧ archive.fds.length ≤ f) ∨
      ∃ value : Value call, value.At order archive b f ∧ RunsOut order calls archive
        (b + (value.tree order).bytes.length) (f + (value.tree order).fds.length) := by
  constructor
  · rintro ⟨before, after, values, hcalls, hat, hlen⟩
    cases values with
    | nil => exact Or.inl ⟨(List.cons.inj hcalls).1, hlen⟩
    | cons value values =>
      obtain ⟨rfl, rfl⟩ := List.cons.inj hcalls
      obtain ⟨hvalue, hvalues⟩ := Values.at_cons.mp hat
      refine Or.inr ⟨value, hvalue, _, after, values, rfl, hvalues, ?_⟩
      rw [Values.fds_cons, List.length_append] at hlen
      omega
  · rintro (⟨rfl, hlen⟩ | ⟨value, hvalue, before, after, values, rfl, hvalues, hlen⟩)
    · exact ⟨[], calls, .nil, rfl, ⟨List.nil_prefix, List.nil_prefix⟩, hlen⟩
    · refine ⟨call :: before, after, .cons value values, rfl,
        Values.at_cons.mpr ⟨hvalue, hvalues⟩, ?_⟩
      rw [Values.fds_cons, List.length_append]
      omega

theorem outOfRange_calls (calls : List Shape)
    (hc : ∀ call ∈ calls, ∀ trivial fields, call ≠ .hooked trivial fields) :
    cursors (decodeAll order calls) ⟨archive, b, f⟩ = .error .outOfRange ↔
      RunsOut order calls archive b f := by
  induction calls generalizing b f with
  | nil =>
    refine iff_of_false (by simp [cursors, decodeAll, Deserializer.run, Except.map]) ?_
    rintro ⟨before, after, values, h, -⟩
    simp at h
  | cons call calls ih =>
    have hcall := @outOfRange_call order archive b f call (hc call List.mem_cons_self)
    have hrest := fun b f => @ih b f fun c hmem => hc c (List.mem_cons_of_mem call hmem)
    have hok := fun d => @cursors_ok_iff order archive b f d call
    rw [cursors_decodeAll_cons, runsOut_cons, ← hcall]
    cases hd : cursors (call.decode order) ⟨archive, b, f⟩ with
    | error fault =>
      simp only [hd, reduceCtorEq, false_iff, not_exists, not_and] at hok
      constructor
      · exact Or.inl
      · rintro (h | ⟨value, hvalue, -⟩)
        · exact h
        · exact absurd rfl (hok _ value hvalue)
    | ok d =>
      obtain ⟨value, hvalue, rfl⟩ := (hok d).mp hd
      constructor
      · exact fun h => Or.inr ⟨value, hvalue, (hrest _ _).mp h⟩
      · rintro (h | ⟨other, hother, h⟩)
        · cases h
        · have heq := (hok _).mpr ⟨other, hother, rfl⟩
          rw [hd] at heq
          obtain ⟨-, hbytes, hfds⟩ := Deserializer.mk.inj (Except.ok.inj heq)
          rw [← hbytes, ← hfds] at h
          exact (hrest _ _).mpr h

end OutOfRange

/-- For every archive, whoever wrote it, and wherever the cursors stand: a sequence of reads, or of
hooks called where there is no `read`, gives back some values exactly if these have been written
there, and then the cursors stand behind them. Descriptors that run out are reported; anything else
that is wrong is not. -/
theorem reads_iff_written (order : ByteOrder) (shapes : List Shape) (archive : Archive)
    (byteOffset fdOffset : ℕ) :
    let outcome := Deserializer.run (decodeAll order shapes) ⟨archive, byteOffset, fdOffset⟩
    (∀ reader, readAll order shapes = some reader → reader = decodeAll order shapes) ∧
    (∀ values : Values shapes, (∃ result d, outcome = .ok (result, d) ∧ result.Same values) ↔
      values.At order archive byteOffset fdOffset) ∧
    (∀ result d, outcome = .ok (result, d) → result.At order archive byteOffset fdOffset ∧
      d = ⟨archive, byteOffset + (result.tree order).bytes.length,
        fdOffset + (result.tree order).fds.length⟩) ∧
    (outcome = .error .outOfRange ↔
      RunsOut order (callsAll shapes) archive byteOffset fdOffset) := by
  intro outcome
  refine ⟨fun reader hr => (readAll_eq_some_iff.mp hr).2, fun values => ⟨?_, ?_⟩, ?_, ?_⟩
  · rintro ⟨result, d, hr, hs⟩
    exact (Values.at_of_run hr hs).1
  · intro hat
    obtain ⟨result, hs, hr⟩ := Values.run_of_at hat
    exact ⟨result, _, hr, hs⟩
  · intro result d hr
    exact Values.at_of_run hr result.same_refl
  · rw [← outOfRange_calls _ fun call => not_hooked_of_callsAll shapes, cursors_callsAll,
      Deserializer.cursors]
    cases hr : Deserializer.run (decodeAll order shapes) ⟨archive, byteOffset, fdOffset⟩ with
    | ok y => simp [outcome, hr, Except.map]
    | error fault => simp [outcome, hr, Except.map]

end Wetnork.Ipc
