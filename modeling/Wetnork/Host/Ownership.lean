import Wetnork.Host.TunDevice

/-! Every descriptor of a tun device has one owner, whatever becomes of the devices. -/
namespace Wetnork.Host

open Runs (Along)
open Descriptors (Owned Table)

variable {s : System} {a : Action} {o l r : Object} {d lhs rhs : ℕ}

/-- The descriptor of a device, if it has one. -/
def TunDevice.held (device : TunDevice) : Option ℕ :=
  if 0 ≤ device.fd then some device.fd.toNat else none

/-- The descriptor of the device at an address, if there is one. -/
def holders (objects : ℕ → Option Object) (d : ℕ) : Option ℕ := (objects d).bind fun o => o.held

@[simp] theorem holders_update (objects : ℕ → Option Object) (d : ℕ) (x : Option Object) :
    holders (Function.update objects d x) =
      Function.update (holders objects) d (x.bind fun o => o.held) := by
  funext i
  by_cases hi : i = d
  · subst hi
    simp [holders]
  · simp [holders, hi]

/-- The open descriptors are those of the live devices, one each. -/
structure Linear (s : System) : Prop where
  owned : Owned s.files (holders s.objects)
  unused : ∀ d, s.objectCount ≤ d → s.objects d = none

namespace System

@[simp] theorem objects_close (s : System) (fd : ℤ) : (s.close fd).objects = s.objects := by
  rw [close]
  split <;> rfl

@[simp] theorem objectCount_close (s : System) (fd : ℤ) :
    (s.close fd).objectCount = s.objectCount := by
  rw [close]
  split <;> rfl

@[simp] theorem registries_close (s : System) (fd : ℤ) :
    (s.close fd).registries = s.registries := by
  rw [close]
  split <;> rfl

@[simp] theorem registryCount_close (s : System) (fd : ℤ) :
    (s.close fd).registryCount = s.registryCount := by
  rw [close]
  split <;> rfl

theorem files_close (s : System) (fd : ℤ) :
    (s.close fd).files = if 0 ≤ fd then s.files.close fd.toNat else s.files := by
  rw [close]
  split <;> rfl

/-- A device that gives up its descriptor closes it. -/
theorem owned_release (h : Owned s.files (holders s.objects)) (ho : s.objects d = some o) :
    Owned (s.close o.fd).files (Function.update (holders s.objects) d none) := by
  rw [files_close]
  by_cases hfd : 0 ≤ o.fd
  · have hd : holders s.objects d = some o.fd.toNat := by simp [holders, ho, TunDevice.held, hfd]
    rw [if_pos hfd]
    exact h.closed hd
  · have hd : holders s.objects d = none := by simp [holders, ho, TunDevice.held, hfd]
    rw [if_neg hfd, ← hd, Function.update_eq_self]
    exact h

/-- Self-assignment releases the descriptor and leaves a device without one. -/
theorem moveAssign_self (ho : s.objects d = some o) (hr : o.registered = false) :
    s.moveAssign d d = { s.close o.fd with
      objects := Function.update s.objects d
        (some { o with fd := -1, ifIndex := -1, name := "", movedFrom := true }) } := by
  simp [moveAssign, ho, hr, modify]

theorem moveAssign_ne (hl : s.objects lhs = some l) (hr : s.objects rhs = some r)
    (hlr : l.registered = false) (hrr : r.registered = false) (hne : lhs ≠ rhs) :
    s.moveAssign lhs rhs = { s.close l.fd with
      objects := Function.update
        (Function.update s.objects lhs
          (some { l with fd := r.fd, name := r.name, movedFrom := false }))
        rhs (some { r with fd := -1, ifIndex := -1, name := "", movedFrom := true }) } := by
  simp [moveAssign, hl, hr, hlr, hrr, modify, hne.symm]

theorem moveConstruct_eq (ho : s.objects d = some o) (hr : o.registered = false)
    (hne : d ≠ s.objectCount) :
    s.moveConstruct d = { s with
      objects := Function.update
        (Function.update s.objects s.objectCount
          (some ⟨⟨o.fd, o.ifIndex, o.name⟩, false, false⟩))
        d (some { o with fd := -1, ifIndex := -1, name := "", movedFrom := true })
      objectCount := s.objectCount + 1 } := by
  simp [moveConstruct, ho, hr, place, modify, hne]

/-- Moves do nothing to devices of a registry. -/
theorem moveConstruct_cases (s : System) (d : ℕ) :
    s.moveConstruct d = s ∨ ∃ o, s.objects d = some o ∧ o.registered = false := by
  rcases ho : s.objects d with - | o
  · exact .inl (by rw [moveConstruct, ho])
  rcases hr : o.registered with - | -
  · exact .inr ⟨o, rfl, hr⟩
  · exact .inl (by simp [moveConstruct, ho, hr])

theorem moveAssign_cases (s : System) (lhs rhs : ℕ) :
    s.moveAssign lhs rhs = s ∨ ∃ l r, s.objects lhs = some l ∧ s.objects rhs = some r ∧
      l.registered = false ∧ r.registered = false := by
  rcases hl : s.objects lhs with - | l
  · exact .inl (by simp only [moveAssign, hl])
  rcases hr : s.objects rhs with - | r
  · exact .inl (by simp only [moveAssign, hl, hr])
  by_cases hreg : l.registered = true ∨ r.registered = true
  · exact .inl (by simp only [moveAssign, hl, hr, if_pos hreg])
  · obtain ⟨hlr, hrr⟩ : l.registered = false ∧ r.registered = false := by simpa using hreg
    exact .inr ⟨l, r, rfl, rfl, hlr, hrr⟩

/-- `createDevice` leaves everything as it was, or a new device is in the registry. -/
theorem createDevice_cases {k : ℕ} {os : Creation} (hp : Possible s (.createDevice k os)) :
    (s.createDevice k os).1 = s ∨ ∃ fd interface, os.openResult = .ok fd ∧
      os.ioctl = .ok interface ∧ s.createDevice k os =
        ((place { s with files := s.files.opened fd (some interface) }
          ⟨⟨fd, os.lookup, interface.name⟩, true, false⟩).assign k interface.name
            s.objectCount, .ok s.objectCount) := by
  rw [createDevice]
  rcases hopen : os.openResult with number | fd
  · exact .inl rfl
  · rcases hioctl : os.ioctl with number | interface
    · exact .inl (by simp only [Table.close_opened none (hp fd hopen)])
    · exact .inr ⟨fd, interface, rfl, rfl, by simp only [Table.opened_opened]⟩

theorem createDevice_error {k : ℕ} {os : Creation} {e : SystemError}
    (hp : Possible s (.createDevice k os)) (he : (s.createDevice k os).2 = .error e) :
    (s.createDevice k os).1 = s := by
  rcases createDevice_cases hp with hs | ⟨fd, interface, -, -, hok⟩
  · exact hs
  · rw [hok] at he
    cases he

/-- A copy has the number the system returned, and stands for what the original stands for. -/
theorem dupFd_ok {os : Except ℤ ℕ} {fd : ℤ} {n : ℕ} {file : Option Interface}
    (h : s.dupFd fd os = .ok (n, file)) :
    os = .ok n ∧ s.files.file fd.toNat = some file ∧ 0 ≤ fd := by
  rw [dupFd] at h
  split at h
  · next hfd =>
    split at h
    · cases h
    · next found hfound =>
      cases os with
      | error number => cases h
      | ok m =>
        obtain ⟨rfl, rfl⟩ : m = n ∧ found = file := by simpa [Except.map] using h
        exact ⟨rfl, hfound, hfd⟩
  · cases h

theorem dup_error {os : Except ℤ ℕ} {e : SystemError} (he : (s.dup d os).2 = .error e) :
    (s.dup d os).1 = s := by
  rw [dup] at he ⊢
  split
  · rfl
  · next o ho =>
    split
    · rfl
    · next hok => simp [ho, hok] at he

end System

namespace Linear

theorem new : Linear System.new where
  owned := Descriptors.owned_empty
  unused _ _ := rfl

theorem setRegistry (h : Linear s) (k : ℕ) (devices : Option Devices) :
    Linear (s.setRegistry k devices) := ⟨h.owned, h.unused⟩

theorem placeRegistry (h : Linear s) (devices : Devices) : Linear (s.placeRegistry devices) :=
  ⟨h.owned, h.unused⟩

/-- An address in use is not one of those yet to come. -/
theorem ne_of_unused (h : Linear s) (ho : s.objects d = some o) {k : ℕ}
    (hk : s.objectCount ≤ k) : k ≠ d := by
  rintro rfl
  rw [h.unused k hk] at ho
  cases ho

theorem destroyDevice (h : Linear s) (d : ℕ) : Linear (s.destroyDevice d) := by
  rw [System.destroyDevice]
  split
  · exact h
  · next o ho =>
    constructor
    · rw [System.objects_close, holders_update]
      simpa only [System.files_close, Option.bind_none] using System.owned_release h.owned ho
    · intro k hk
      simp only [System.objects_close, System.objectCount_close] at hk ⊢
      exact (Function.update_of_ne (h.ne_of_unused ho hk) ..).trans (h.unused k hk)

theorem destroyAll (h : Linear s) (devices : Devices) : Linear (s.destroyAll devices) := by
  rw [System.destroyAll]
  generalize devices.entries = entries
  induction entries generalizing s with
  | nil => exact h
  | cons entry entries ih => exact ih (h.destroyDevice entry.2)

theorem assign (h : Linear s) (k : ℕ) (name : String) (d : ℕ) : Linear (s.assign k name d) := by
  rw [System.assign]
  split
  · exact h
  · split
    · exact h.setRegistry _ _
    · exact (h.setRegistry _ _).destroyDevice _

theorem holders_objectCount (h : Linear s) : holders s.objects s.objectCount = none := by
  simp [holders, h.unused s.objectCount le_rfl]

/-- A new device gets a descriptor that was just handed out. -/
theorem place (h : Linear s) {fd : ℕ} (hfd : s.files.file fd = none) (file : Option Interface)
    (ho : o.fd = fd) :
    Linear (System.place { s with files := s.files.opened fd file } o) := by
  constructor
  · have hheld : o.held = some fd := by simp [TunDevice.held, ho]
    simp only [System.place, holders_update, Option.bind_some, hheld]
    exact h.owned.opened hfd h.holders_objectCount file
  · intro k hk
    have hlt : s.objectCount + 1 ≤ k := hk
    have hne : k ≠ s.objectCount := by omega
    exact (Function.update_of_ne hne ..).trans (h.unused k (by omega))

theorem createDevice (h : Linear s) {k : ℕ} {os : Creation}
    (hp : Possible s (.createDevice k os)) : Linear (s.createDevice k os).1 := by
  rcases System.createDevice_cases hp with hs | ⟨fd, interface, hopen, -, hok⟩
  · rwa [hs]
  · rw [hok]
    exact (h.place (hp fd hopen) (some interface) rfl).assign _ _ _

theorem closeDevice (h : Linear s) (k : ℕ) (name : String) : Linear (s.closeDevice k name).1 := by
  rw [System.closeDevice]
  split
  · exact h
  · split
    · exact h
    · exact (h.setRegistry _ _).destroyDevice _

theorem moveRegistry (h : Linear s) (k : ℕ) : Linear (s.moveRegistry k) := by
  rw [System.moveRegistry]
  split
  · exact h
  · exact (h.setRegistry _ _).placeRegistry _

theorem assignRegistry (h : Linear s) (lhs rhs : ℕ) : Linear (s.assignRegistry lhs rhs) := by
  rw [System.assignRegistry]
  split
  · exact (((h.setRegistry _ _).destroyAll _).setRegistry _ _).setRegistry _ _
  · exact h

theorem destroyRegistry (h : Linear s) (k : ℕ) : Linear (s.destroyRegistry k) := by
  rw [System.destroyRegistry]
  split
  · exact h
  · exact (h.setRegistry _ _).destroyAll _

theorem dup (h : Linear s) {os : Except ℤ ℕ} (hp : Possible s (.dup d os)) :
    Linear (s.dup d os).1 := by
  rw [System.dup]
  split
  · exact h
  · next o ho =>
    split
    · exact h
    · next fd file hok =>
      obtain ⟨hos, -, -⟩ := System.dupFd_ok hok
      exact h.place (hp fd hos) file rfl

theorem ne_objectCount (h : Linear s) (ho : s.objects d = some o) : d ≠ s.objectCount :=
  (h.ne_of_unused ho le_rfl).symm

theorem moveConstruct (h : Linear s) (d : ℕ) : Linear (s.moveConstruct d) := by
  rcases s.moveConstruct_cases d with hs | ⟨o, ho, hr⟩
  · rwa [hs]
  · have hne := h.ne_objectCount ho
    have hd : holders s.objects d = o.held := by simp [holders, ho]
    rw [System.moveConstruct_eq ho hr hne]
    constructor
    · have hmoved := h.owned.handedOver h.holders_objectCount (i := d)
      rw [hd, Function.update_comm hne] at hmoved
      simp only [holders_update]
      exact hmoved
    · intro k hk
      have hlt : s.objectCount + 1 ≤ k := hk
      have hk₁ : k ≠ s.objectCount := by omega
      have hk₂ : k ≠ d := h.ne_of_unused ho (by omega)
      simp [hk₁, hk₂, h.unused k (by omega)]

theorem moveAssign (h : Linear s) (lhs rhs : ℕ) : Linear (s.moveAssign lhs rhs) := by
  rcases s.moveAssign_cases lhs rhs with hs | ⟨l, r, hl, hr, hlr, hrr⟩
  · rwa [hs]
  have hrel := System.owned_release h.owned hl
  by_cases hne : lhs = rhs
  · subst hne
    rw [System.moveAssign_self hl hlr]
    constructor
    · simp only [holders_update]
      exact hrel
    · intro k hk
      have hk' : s.objectCount ≤ k := by simpa using hk
      exact (Function.update_of_ne (h.ne_of_unused hl hk') ..).trans (h.unused k hk')
  · rw [System.moveAssign_ne hl hr hlr hrr hne]
    constructor
    · -- the target, which has nothing left, takes over what the source has
      have hnone : Function.update (holders s.objects) lhs none lhs = none :=
        Function.update_self ..
      have hover := hrel.handedOver hnone (i := rhs)
      have hrhs : holders s.objects rhs = r.held := by simp [holders, hr]
      rw [Function.update_of_ne (Ne.symm hne), hrhs, Function.update_comm (Ne.symm hne),
        Function.update_idem] at hover
      simp only [holders_update]
      exact hover
    · intro k hk
      have hk' : s.objectCount ≤ k := by simpa using hk
      have hk₁ : k ≠ lhs := h.ne_of_unused hl hk'
      have hk₂ : k ≠ rhs := h.ne_of_unused hr hk'
      simp [hk₁, hk₂, h.unused k hk']

theorem destroy (h : Linear s) (d : ℕ) : Linear (s.destroy d) := by
  rw [System.destroy]
  split
  · exact h
  · split
    · exact h
    · exact h.destroyDevice d

theorem step (h : Linear s) (hp : Possible s a) : Linear (step s a) := by
  cases a with
  | newRegistry => exact h.placeRegistry ∅
  | createDevice k os =>
    simp only [Host.step]
    split
    · exact h.createDevice hp
    · exact h
  | closeDevice k name => exact h.closeDevice k name
  | moveRegistry k => exact h.moveRegistry k
  | assignRegistry lhs rhs => exact h.assignRegistry lhs rhs
  | destroyRegistry k => exact h.destroyRegistry k
  | dup d os => exact h.dup hp
  | moveConstruct d => exact h.moveConstruct d
  | moveAssign lhs rhs => exact h.moveAssign lhs rhs
  | destroy d => exact h.destroy d

end Linear

/-- After the step every open descriptor has one live device that holds it, no device holds one
that is closed, and none has been closed twice; if the step throws, descriptors and registries are
what they were. -/
def Preserves (s : System) (a : Action) : Prop :=
  Owned (step s a).files (holders (step s a).objects) ∧
    match a with
    | .createDevice r os => (s.registries r).isSome → ∀ e, (s.createDevice r os).2 = .error e →
        (step s a).files = s.files ∧ (step s a).registries = s.registries
    | .dup d os => ∀ e, (s.dup d os).2 = .error e →
        (step s a).files = s.files ∧ (step s a).registries = s.registries
    | _ => True

theorem Linear.preserves (h : Linear s) (hp : Possible s a) : Preserves s a := by
  refine ⟨(h.step hp).owned, ?_⟩
  cases a with
  | createDevice r os =>
    intro hr e he
    simp only [Host.step, if_pos hr, System.createDevice_error hp he, and_self]
  | dup d os =>
    intro e he
    simp only [Host.step, System.dup_error he, and_self]
  | _ => trivial

/-- Over every run, descriptors of tun devices have exactly one owner. -/
theorem tun_descriptors_linear (actions : List Action) (h : Along step Possible .new actions) :
    Along step Preserves .new actions :=
  Runs.along_of_invariant (fun _ _ hs hp => hs.preserves hp) (fun _ _ hs hp => hs.step hp)
    Linear.new h

/-- A device is duplicated, moved, assigned to itself; then numbers and names are used again. -/
theorem tun_descriptors_reused :
    Along step Preserves .new
      [.newRegistry, .createDevice 0 ⟨.ok 3, .ok ⟨7, "tun0"⟩, 7⟩, .dup 0 (.ok 4), .moveConstruct 1,
        .moveAssign 2 2, .createDevice 0 ⟨.ok 4, .error 16, 0⟩,
        .createDevice 0 ⟨.ok 4, .ok ⟨7, "tun0"⟩, 7⟩, .destroyRegistry 0] := by
  refine tun_descriptors_linear _ ⟨trivial, ?_, ?_, trivial, trivial, ?_, ?_, trivial, trivial⟩
  all_goals
    rintro fd ⟨⟩
    decide

end Wetnork.Host
