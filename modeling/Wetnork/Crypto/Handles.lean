import Wetnork.Library.Runs
import Wetnork.Library.Store

/-! Who holds the handles of gnutls sessions, when `CryptoSession`s are moved and destroyed. -/
namespace Wetnork.Crypto.Handles

open Runs (Along)
open Store (update_some_iff update_none_iff)

/-- A handle from `gnutls_init`: how often it was passed to `gnutls_deinit` and to any other
function afterwards, and the sessions that were registered for it, as the transport pointer and as
the target of the callback on `next`. -/
structure Handle where
  deinits : ℕ
  late : ℕ
  transportPtr : Option ℕ
  readCallback : Option ℕ
deriving DecidableEq, Repr

/-- The functions the operations of a session pass its handle to. -/
inductive Gnutls where
  | handshake
  | rehandshake
  | recordRecv
  | recordSend
  | bye
  | alertGet
deriving DecidableEq, Repr

/-- The handles, and the one that each `CryptoSession` object has in `session` while it lives. -/
structure Process where
  handles : ℕ → Option Handle
  inits : ℕ
  sessions : ℕ → Option ℕ
  objects : ℕ

namespace Process

def new : Process := ⟨fun _ => none, 0, fun _ => none, 0⟩

def gnutlsInit (p : Process) : Process :=
  { p with handles := Function.update p.handles p.inits (some ⟨0, 0, none, none⟩)
           inits := p.inits + 1 }

/-- The constructor registers `this` twice. -/
def construct (p : Process) (handle : ℕ) : Process :=
  let registered := (p.handles handle).map fun h =>
    { h with transportPtr := some p.objects, readCallback := some p.objects }
  { p with handles := Function.update p.handles handle registered
           sessions := Function.update p.sessions p.objects (some handle)
           objects := p.objects + 1 }

/-- `CryptoContext::openSession`, with the results of `gnutls_init` and `gnutls_credentials_set`;
the session is constructed in the place of the caller. -/
def openSession (p : Process) (init credentials : ℤ) : Process :=
  if init < 0 then
    p
  else if credentials < 0 then
    p.gnutlsInit
  else
    p.gnutlsInit.construct p.inits

/-- `CryptoSession(CryptoSession&&) = default`. For a pointer, moving is copying. -/
def moveConstruct (p : Process) (session : ℕ) : Process :=
  match p.sessions session with
  | none => p
  | some handle =>
    { p with sessions := Function.update p.sessions p.objects (some handle)
             objects := p.objects + 1 }

/-- An operation of a session, as the functions of gnutls it calls. -/
def operate (p : Process) (session : ℕ) (calls : List Gnutls) : Process :=
  match p.sessions session with
  | none => p
  | some handle =>
    let after := (p.handles handle).map fun h =>
      if h.deinits = 0 then h else { h with late := h.late + calls.length }
    { p with handles := Function.update p.handles handle after }

/-- `~CryptoSession` -/
def destroy (p : Process) (session : ℕ) : Process :=
  match p.sessions session with
  | none => p
  | some handle =>
    let after := (p.handles handle).map fun h => { h with deinits := h.deinits + 1 }
    { p with handles := Function.update p.handles handle after
             sessions := Function.update p.sessions session none }

end Process

inductive Action where
  | openSession (init credentials : ℤ)
  | moveConstruct (session : ℕ)
  | operate (session : ℕ) (calls : List Gnutls)
  | destroy (session : ℕ)

def step (p : Process) : Action → Process
  | .openSession init credentials => p.openSession init credentials
  | .moveConstruct session => p.moveConstruct session
  | .operate session calls => p.operate session calls
  | .destroy session => p.destroy session

/-- A handle is deinitialised at most once and not used afterwards; until then one live session
holds it, and gnutls and `next` know that session. -/
structure Sound (p : Process) : Prop where
  once : ∀ h handle, p.handles h = some handle → handle.deinits ≤ 1
  unused : ∀ h handle, p.handles h = some handle → handle.late = 0
  known : ∀ h handle, p.handles h = some handle → handle.deinits = 0 →
    ∃ session, (∀ other, p.sessions other = some h ↔ other = session) ∧
      handle.transportPtr = some session ∧ handle.readCallback = some session

/-- No session is moved, and no `openSession` fails between its two calls of gnutls. -/
def Settled (p : Process) : Action → Prop
  | .openSession init credentials => init < 0 ∨ 0 ≤ credentials
  | .moveConstruct session => p.sessions session = none
  | _ => True

/-- Live sessions and the handles that are not deinitialised belong together one to one. -/
structure Paired (p : Process) : Prop where
  holds : ∀ session h, p.sessions session = some h → ∃ handle, p.handles h = some handle ∧
    handle.deinits = 0 ∧ handle.transportPtr = some session ∧ handle.readCallback = some session
  held : ∀ h handle, p.handles h = some handle → handle.deinits = 0 →
    ∃ session, p.sessions session = some h
  once : ∀ h handle, p.handles h = some handle → handle.deinits ≤ 1
  unused : ∀ h handle, p.handles h = some handle → handle.late = 0
  numbered : ∀ h handle, p.handles h = some handle → h < p.inits
  counted : ∀ session h, p.sessions session = some h → session < p.objects

variable {p : Process} {a : Action} {init credentials : ℤ} {session h : ℕ}

/-- A session that was opened is what gnutls and `next` know. -/
theorem Process.open_eq (p : Process) : p.gnutlsInit.construct p.inits =
    ⟨Function.update p.handles p.inits (some ⟨0, 0, some p.objects, some p.objects⟩), p.inits + 1,
      Function.update p.sessions p.objects (some p.inits), p.objects + 1⟩ := by
  simp [construct, gnutlsInit]

theorem Process.destroy_eq {handle : Handle} (hs : p.sessions session = some h)
    (hh : p.handles h = some handle) (hd : handle.deinits = 0) : p.destroy session =
    ⟨Function.update p.handles h (some { handle with deinits := 1 }), p.inits,
      Function.update p.sessions session none, p.objects⟩ := by
  simp [destroy, hs, hh, hd]

namespace Paired

theorem new : Paired Process.new := by
  constructor <;> simp [Process.new]

theorem sound (hp : Paired p) : Sound p where
  once := hp.once
  unused := hp.unused
  known h handle hh hd := by
    obtain ⟨session, hs⟩ := hp.held h handle hh hd
    obtain ⟨handle', hh', -, ht, hr⟩ := hp.holds session h hs
    obtain rfl : handle = handle' := by simpa [hh] using hh'
    refine ⟨session, fun other => ⟨fun ho => ?_, fun ho => ho ▸ hs⟩, ht, hr⟩
    obtain ⟨handle'', hh'', -, ht', -⟩ := hp.holds other h ho
    obtain rfl : handle = handle'' := by simpa [hh] using hh''
    simpa [ht] using ht'.symm

/-- A live session is the only one with its handle. -/
theorem eq_of_holds (hp : Paired p) {other : ℕ} (hs : p.sessions session = some h)
    (ho : p.sessions other = some h) : other = session := by
  obtain ⟨handle, hh, -, ht, -⟩ := hp.holds session h hs
  obtain ⟨handle', hh', -, ht', -⟩ := hp.holds other h ho
  obtain rfl : handle = handle' := by simpa [hh] using hh'
  simpa [ht] using ht'.symm

/-- No session holds a handle that is yet to come. -/
theorem ne_inits (hp : Paired p) (hs : p.sessions session = some h) : h ≠ p.inits := by
  obtain ⟨handle, hh, -⟩ := hp.holds session h hs
  exact (hp.numbered h handle hh).ne

theorem opened (hp : Paired p) : Paired (p.gnutlsInit.construct p.inits) := by
  rw [Process.open_eq]
  constructor
  · intro s i hs
    rcases update_some_iff.mp hs with ⟨rfl, rfl⟩ | ⟨-, hs⟩
    · exact ⟨_, Function.update_self .., rfl, rfl, rfl⟩
    · obtain ⟨handle, hh, hrest⟩ := hp.holds s i hs
      exact ⟨handle, (Function.update_of_ne (hp.ne_inits hs) ..).trans hh, hrest⟩
  · intro i handle hi hd
    rcases update_some_iff.mp hi with ⟨rfl, rfl⟩ | ⟨-, hi⟩
    · exact ⟨p.objects, Function.update_self ..⟩
    · obtain ⟨s, hs⟩ := hp.held i handle hi hd
      have hne := (hp.counted s i hs).ne
      exact ⟨s, (Function.update_of_ne hne ..).trans hs⟩
  · intro i handle hi
    rcases update_some_iff.mp hi with ⟨rfl, rfl⟩ | ⟨-, hi⟩
    · exact Nat.zero_le 1
    · exact hp.once i handle hi
  · intro i handle hi
    rcases update_some_iff.mp hi with ⟨rfl, rfl⟩ | ⟨-, hi⟩
    · rfl
    · exact hp.unused i handle hi
  · intro i handle hi
    change i < p.inits + 1
    rcases update_some_iff.mp hi with ⟨rfl, -⟩ | ⟨-, hi⟩
    · omega
    · have := hp.numbered i handle hi
      omega
  · intro s i hs
    change s < p.objects + 1
    rcases update_some_iff.mp hs with ⟨rfl, -⟩ | ⟨-, hs⟩
    · omega
    · have := hp.counted s i hs
      omega

/-- Operations of live sessions use handles that are not deinitialised. -/
theorem operate_eq (hp : Paired p) (session : ℕ) (calls : List Gnutls) :
    p.operate session calls = p := by
  rw [Process.operate]
  split
  · rfl
  · next h hs =>
    obtain ⟨handle, hh, hd, -⟩ := hp.holds session h hs
    have hu : Function.update p.handles h (some handle) = p.handles := by
      rw [← hh, Function.update_eq_self]
    simp [hh, hd, hu]

theorem destroyed (hp : Paired p) (session : ℕ) : Paired (p.destroy session) := by
  rcases hs : p.sessions session with - | h
  · rwa [Process.destroy, hs]
  obtain ⟨handle, hh, hd, -⟩ := hp.holds session h hs
  rw [Process.destroy_eq hs hh hd]
  constructor
  · intro s i hi
    obtain ⟨hne, hsi⟩ := update_none_iff.mp hi
    have hih : i ≠ h := by
      rintro rfl
      exact hne (hp.eq_of_holds hs hsi)
    obtain ⟨other, ho, hrest⟩ := hp.holds s i hsi
    exact ⟨other, (Function.update_of_ne hih ..).trans ho, hrest⟩
  · intro i other hi hd'
    rcases update_some_iff.mp hi with ⟨-, rfl⟩ | ⟨hne, hi⟩
    · cases hd'
    · obtain ⟨s, hsi⟩ := hp.held i other hi hd'
      have hss : s ≠ session := by
        rintro rfl
        exact hne (by simpa [hs] using hsi.symm)
      exact ⟨s, (Function.update_of_ne hss ..).trans hsi⟩
  · intro i other hi
    rcases update_some_iff.mp hi with ⟨-, rfl⟩ | ⟨-, hi⟩
    · exact le_rfl
    · exact hp.once i other hi
  · intro i other hi
    rcases update_some_iff.mp hi with ⟨-, rfl⟩ | ⟨-, hi⟩
    · exact hp.unused h handle hh
    · exact hp.unused i other hi
  · intro i other hi
    rcases update_some_iff.mp hi with ⟨rfl, -⟩ | ⟨-, hi⟩
    · exact hp.numbered i handle hh
    · exact hp.numbered i other hi
  · intro s i hi
    exact hp.counted s i (update_none_iff.mp hi).2

theorem step (hp : Paired p) (ha : Settled p a) : Paired (step p a) := by
  cases a with
  | openSession init credentials =>
    simp only [Handles.step, Process.openSession]
    split
    · exact hp
    · next hinit =>
      rcases ha with hi | hc
      · exact absurd hi hinit
      · rw [if_neg (by omega)]
        exact hp.opened
  | moveConstruct session =>
    simp only [Handles.step, Process.moveConstruct]
    rwa [show p.sessions session = none from ha]
  | operate session calls =>
    simp only [Handles.step]
    rwa [hp.operate_eq]
  | destroy session => exact hp.destroyed session

/-- A moved session and the one it was moved to hold the same handle. -/
theorem not_sound_of_move (hp : Paired p) (hs : p.sessions session = some h) :
    ¬ Sound (p.moveConstruct session) := by
  intro hsound
  obtain ⟨handle, hh, hd, -⟩ := hp.holds session h hs
  have heq : p.moveConstruct session =
      { p with sessions := Function.update p.sessions p.objects (some h)
               objects := p.objects + 1 } := by rw [Process.moveConstruct, hs]
  rw [heq] at hsound
  obtain ⟨holder, huniq, -⟩ := hsound.known h handle hh hd
  have hne := (hp.counted session h hs).ne
  have hold := (huniq session).mp (by simpa [hne] using hs)
  have hnew := (huniq p.objects).mp (by simp)
  exact hne (hold.trans hnew.symm)

/-- Nobody holds the handle of an `openSession` that failed after `gnutls_init`. -/
theorem not_sound_of_leak (hp : Paired p) : ¬ Sound p.gnutlsInit := by
  intro hsound
  obtain ⟨holder, huniq, -⟩ := hsound.known p.inits ⟨0, 0, none, none⟩
    (by simp [Process.gnutlsInit]) rfl
  have hs : p.sessions holder = some p.inits := (huniq holder).mpr rfl
  exact hp.ne_inits hs rfl

theorem sound_iff_settled (hp : Paired p) : Sound (Handles.step p a) ↔ Settled p a := by
  refine ⟨fun hs => ?_, fun ha => (hp.step ha).sound⟩
  cases a with
  | openSession init credentials =>
    by_contra hn
    obtain ⟨hi, hc⟩ := not_or.mp hn
    simp only [Handles.step, Process.openSession, if_neg hi, if_pos (not_le.mp hc)] at hs
    exact hp.not_sound_of_leak hs
  | moveConstruct session =>
    rcases hh : p.sessions session with - | h
    · exact hh
    · exact absurd hs (hp.not_sound_of_move hh)
  | operate session calls => trivial
  | destroy session => trivial

end Paired

/-- Handles stay with their sessions exactly as long as no session is moved and none is abandoned
between `gnutls_init` and the constructor. -/
theorem handles_sound_iff_settled (actions : List Action) :
    Along step (fun p a => Sound (step p a)) .new actions ↔ Along step Settled .new actions :=
  Runs.along_iff (fun _ _ hp _ => hp.sound_iff_settled) (fun _ _ hp _ ha => hp.step ha)
    Paired.new (Runs.along_of_forall fun _ _ => trivial)

/-- A session is opened and then moved into a tunnel, as its constructor does, and the source is
destroyed: `close` passes a handle to `gnutls_bye` that is gone, and the session that gnutls has as
its transport is dead. -/
theorem moved_session_unsound :
    let actions : List Action :=
      [.openSession 0 0, .operate 0 [.handshake], .moveConstruct 0, .destroy 0, .operate 1 [.bye],
        .destroy 1]
    (Runs.run step .new actions).handles 0 = some ⟨2, 1, some 0, some 0⟩ ∧
      ¬ Along step (fun p a => Sound (step p a)) .new actions := by
  intro actions
  have hend : (Runs.run step .new actions).handles 0 = some ⟨2, 1, some 0, some 0⟩ := by decide
  refine ⟨hend, ?_⟩
  rintro ⟨-, -, -, -, -, hsound, -⟩
  exact absurd (hsound.once 0 _ hend) (by decide)

end Wetnork.Crypto.Handles
