import Wetnork.Library.Runs
import Wetnork.Packet

/-! Chains of `skip` and `truncate`: whatever their arguments, they select one window. -/
namespace Wetnork.Packet

variable {p : Packet} {n m : ℕ}

/-- A call that narrows a packet. -/
inductive Narrowing where
  | skip (bytes : ℕ)
  | truncate (length : ℕ)
deriving DecidableEq, Repr

def Narrowing.apply (p : Packet) : Narrowing → Packet
  | .skip bytes => p.skip bytes
  | .truncate length => p.truncate length

/-- What the call is to do to the contents. -/
def Narrowing.select (contents : Bytes) : Narrowing → Bytes
  | .skip bytes => contents.drop bytes
  | .truncate length => contents.take length

/-- The range of `q` lies inside that of `p`, on the same block. -/
structure Inside (q p : Packet) : Prop where
  block : q.block = p.block
  start : p.offset ≤ q.offset
  stop : q.offset + q.length ≤ p.offset + p.length

/-- The `m` bytes of a packet from position `n` on. -/
def window (p : Packet) (n m : ℕ) : Packet := ⟨p.block, p.offset + n, m⟩

theorem window_inside (h : n + m ≤ p.length) : (p.window n m).Inside p := by
  refine ⟨rfl, ?_, ?_⟩ <;> simp only [window] <;> omega

theorem window_inBounds (hp : p.InBounds) (h : n + m ≤ p.length) : (p.window n m).InBounds := by
  have hn := hp.nonneg
  have hf := hp.fits
  refine ⟨?_, ?_, hp.small⟩ <;> simp only [window] <;> omega

theorem window_skip (hp : p.InBounds) (h : n + m ≤ p.length) (bytes : ℕ) :
    (p.window n m).skip bytes = p.window (n + min bytes m) (m - bytes) := by
  have ho := skip_offset (n := bytes) (window_inBounds hp h)
  have hl := skip_length (p := p.window n m) (n := bytes)
  simp only [window] at ho hl ⊢
  rw [Packet.mk.injEq]
  refine ⟨rfl, ?_, hl⟩
  rw [ho]
  push_cast
  omega

theorem truncate_length (p : Packet) (n : ℕ) : (p.truncate n).length = min n p.length := by
  simp only [truncate]
  split <;> omega

theorem window_truncate (p : Packet) (n m length : ℕ) :
    (p.window n m).truncate length = p.window n (min length m) := by
  have hl := truncate_length (p.window n m) length
  simp only [window] at hl ⊢
  rw [Packet.mk.injEq]
  exact ⟨rfl, rfl, hl⟩

theorem truncate_contents (p : Packet) (n : ℕ) : (p.truncate n).contents = p.contents.take n := by
  rw [contents, contents, truncate_length, List.take_take]
  rfl

/-- One `skip` and one `truncate` select any window. -/
theorem window_eq (hp : p.InBounds) (h : n + m ≤ p.length) :
    p.window n m = (p.skip n).truncate m := by
  have hwhole : p.window 0 p.length = p := by
    simp [window]
  have hs := window_skip hp (n := 0) (m := p.length) (by omega) n
  rw [hwhole] at hs
  rw [hs, window_truncate]
  congr 1 <;> omega

/-- A call narrows a window to a window. -/
theorem window_step (hp : p.InBounds) (h : n + m ≤ p.length) (call : Narrowing) :
    ∃ n' m', n' + m' ≤ p.length ∧ call.apply (p.window n m) = p.window n' m' := by
  cases call with
  | skip bytes => exact ⟨n + min bytes m, m - bytes, by omega, window_skip hp h bytes⟩
  | truncate length => exact ⟨n, min length m, by omega, window_truncate p n m length⟩

/-- So does a chain, from the packet itself on. -/
theorem window_run (hp : p.InBounds) (chain : List Narrowing) :
    ∃ n m, n + m ≤ p.length ∧ Runs.run Narrowing.apply p chain = p.window n m := by
  let Window (q : Packet) : Prop := ∃ n m, n + m ≤ p.length ∧ q = p.window n m
  have hstep : ∀ q call, Window q → Window (Narrowing.apply q call) := by
    rintro q call ⟨n, m, h, rfl⟩
    exact window_step hp h call
  have hstart : Window p := ⟨0, p.length, by omega, by simp [window]⟩
  exact Runs.invariant hstep hstart

theorem apply_inBounds (hp : p.InBounds) (call : Narrowing) : (call.apply p).InBounds := by
  obtain ⟨n, m, h, he⟩ := window_run hp [call]
  rw [Runs.run_cons, Runs.run_nil] at he
  rw [he]
  exact window_inBounds hp h

theorem apply_contents (hp : p.InBounds) (call : Narrowing) :
    (call.apply p).contents = call.select p.contents := by
  cases call with
  | skip bytes => exact skip_contents hp
  | truncate length => exact truncate_contents p length

theorem contents_run (hp : p.InBounds) (chain : List Narrowing) :
    (Runs.run Narrowing.apply p chain).contents = Runs.run Narrowing.select p.contents chain := by
  induction chain generalizing p with
  | nil => rfl
  | cons call chain ih =>
    rw [Runs.run_cons, Runs.run_cons, ih (apply_inBounds hp call), apply_contents hp]

/-- A chain of calls never leaves the packet it starts from, does to the contents what its calls
say, and is one `skip` and one `truncate` by at most the length of the packet. -/
theorem view_algebra (p : { p : Packet // p.InBounds }) (chain : List Narrowing) :
    let q := Runs.run Narrowing.apply p.1 chain
    q.Inside p.1 ∧ q.InBounds ∧
    q.contents = Runs.run Narrowing.select p.1.contents chain ∧
    ∃ n m, n + m ≤ p.1.length ∧ q = (p.1.skip n).truncate m := by
  intro q
  obtain ⟨n, m, h, hq⟩ : ∃ n m, n + m ≤ p.1.length ∧ q = p.1.window n m := window_run p.2 chain
  refine ⟨?_, ?_, contents_run p.2 chain, n, m, h, ?_⟩
  · rw [hq]
    exact window_inside h
  · rw [hq]
    exact window_inBounds p.2 h
  · rw [hq, window_eq p.2 h]

/-- The largest `size_t` skips to the end of the window and truncates nothing. -/
example : Runs.run Narrowing.apply ⟨[1, 2, 3, 4, 5], 1, 3⟩
    [.truncate (2 ^ 64 - 1), .skip 1, .skip (2 ^ 64 - 1)] = ⟨[1, 2, 3, 4, 5], 4, 0⟩ := by
  decide

end Wetnork.Packet
