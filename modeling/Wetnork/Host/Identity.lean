import Wetnork.Host.Ownership

/-! Whether tun devices know which interface their descriptor stands for. -/
namespace Wetnork.Host

open Runs (Along)
open Store (update_some_iff update_none_iff)
open Descriptors (Table)

variable {s t : System} {a : Action} {o l r : Object} {d lhs rhs : ℕ}

inductive Change where
  | up
  | down
  | mtu (size : ℕ)
deriving DecidableEq, Repr

/-- What `TunAdminContext` asks of the kernel, for the interface with this index. -/
structure LinkChange where
  ifIndex : ℤ
  change : Change
deriving DecidableEq, Repr

def setLinkState (tun : TunDevice) (up : Bool) : LinkChange :=
  ⟨tun.ifIndex, if up then .up else .down⟩

def setLinkMtu (tun : TunDevice) (mtu : ℕ) : LinkChange := ⟨tun.ifIndex, .mtu mtu⟩

/-- A device that holds a descriptor has the index and the name of its interface, so that this is
the interface that is administered through it. -/
def Truthful (files : Table (Option Interface)) (device : TunDevice) : Prop :=
  0 ≤ device.fd → ∃ interface, files.file device.fd.toNat = some (some interface) ∧
    device.ifIndex = interface.index ∧ device.name = interface.name ∧
    (∀ up, (setLinkState device up).ifIndex = interface.index) ∧
    ∀ mtu, (setLinkMtu device mtu).ifIndex = interface.index

/-- A device that was moved from is empty. -/
def Emptied (o : Object) : Prop :=
  o.movedFrom = true → o.fd = -1 ∧ o.ifIndex = -1 ∧ o.name = ""

structure Identified (s : System) : Prop where
  truthful : ∀ d o, s.objects d = some o → Truthful s.files o.toTunDevice
  emptied : ∀ d o, s.objects d = some o → Emptied o
  stored : ∀ k name d, s.findDevice k name = some d → ∃ o, s.objects d = some o ∧ o.name = name

/-- A move assignment that takes over a descriptor is from a device with the same index, and for a
new interface `if_nametoindex` returns its index. -/
def Matching (s : System) : Action → Prop
  | .createDevice k os => (s.registries k).isSome → ∀ fd interface, os.openResult = .ok fd →
    os.ioctl = .ok interface → os.lookup = interface.index
  | .moveAssign lhs rhs => lhs ≠ rhs → ∀ l r, s.objects lhs = some l → s.objects rhs = some r →
    l.registered = false → r.registered = false → 0 ≤ r.fd → l.ifIndex = r.ifIndex
  | _ => True

theorem truthful_iff {files : Table (Option Interface)} {device : TunDevice} :
    Truthful files device ↔ (0 ≤ device.fd → ∃ interface,
      files.file device.fd.toNat = some (some interface) ∧
        device.ifIndex = interface.index ∧ device.name = interface.name) := by
  refine imp_congr_right fun _ => exists_congr fun interface => ?_
  constructor
  · rintro ⟨hf, hi, hn, -, -⟩
    exact ⟨hf, hi, hn⟩
  · rintro ⟨hf, hi, hn⟩
    exact ⟨hf, hi, hn, fun _ => hi, fun _ => hi⟩

/-- A device without a descriptor has nothing to be wrong about. -/
theorem truthful_of_neg {files : Table (Option Interface)} {device : TunDevice}
    (h : device.fd = -1) : Truthful files device := fun hfd => absurd hfd (by omega)

/-- Closing another descriptor changes nothing for a device. -/
theorem Truthful.close {device : TunDevice} {fd : ℤ} (h : Truthful s.files device)
    (hne : 0 ≤ fd → 0 ≤ device.fd → device.fd ≠ fd) : Truthful (s.close fd).files device := by
  rw [truthful_iff] at h ⊢
  intro hfd
  obtain ⟨interface, hf, hrest⟩ := h hfd
  refine ⟨interface, ?_, hrest⟩
  rw [System.files_close]
  split
  · next hpos =>
    have hn : device.fd.toNat ≠ fd.toNat := by
      have := hne hpos hfd
      omega
    rw [Table.close]
    split
    · simpa only [Function.update_of_ne hn] using hf
    · exact hf
  · exact hf

/-- A number that was not in use is not the one of a device that is truthful. -/
theorem Truthful.opened {files : Table (Option Interface)} {device : TunDevice} {n : ℕ}
    (h : Truthful files device) (hn : files.file n = none) (file : Option Interface) :
    Truthful (files.opened n file) device := by
  rw [truthful_iff] at h ⊢
  intro hfd
  obtain ⟨interface, hf, hrest⟩ := h hfd
  have hne : device.fd.toNat ≠ n := by
    rintro rfl
    rw [hn] at hf
    cases hf
  exact ⟨interface, (Function.update_of_ne hne ..).trans hf, hrest⟩

/-- A device for a new interface. -/
theorem truthful_opened (files : Table (Option Interface)) (fd : ℕ) (interface : Interface) :
    Truthful (files.opened fd (some interface)) ⟨fd, interface.index, interface.name⟩ :=
  truthful_iff.mpr fun _ => ⟨interface, by simp [Table.opened], rfl, rfl⟩

/-- Two devices do not have one descriptor. -/
theorem Linear.fd_ne (h : Linear s) {d' : ℕ} {o' : Object} (ho : s.objects d = some o)
    (ho' : s.objects d' = some o') (hne : d' ≠ d) : 0 ≤ o.fd → 0 ≤ o'.fd → o'.fd ≠ o.fd := by
  intro hfd hfd' heq
  have hd : holders s.objects d = some o.fd.toNat := by simp [holders, ho, TunDevice.held, hfd]
  have hd' : holders s.objects d' = some o.fd.toNat := by
    simp [holders, ho', TunDevice.held, heq, hfd]
  exact hne (h.owned.unique d' d _ hd' hd)

/-- A device that takes the place of another one under its name is not affected by the end of that
one, and neither is what its descriptor stands for. -/
theorem Linear.assign_kept (h : Linear s) (k : ℕ) (name : String) {device : TunDevice}
    (ho : s.objects d = some o) (hne : s.findDevice k name ≠ some d) (ht : Truthful s.files device)
    (hfd : device.fd = o.fd) :
    (s.assign k name d).objects d = some o ∧ Truthful (s.assign k name d).files device := by
  rw [System.assign]
  split
  · exact ⟨ho, ht⟩
  next devices hk =>
  split
  · exact ⟨ho, ht⟩
  next old hold =>
  have hod : d ≠ old := by
    rintro rfl
    exact hne (by rw [System.findDevice, hk]; exact hold)
  rw [System.destroyDevice]
  split
  · exact ⟨ho, ht⟩
  next left hleft =>
  constructor
  · rw [System.objects_close]
    exact (Function.update_of_ne hod ..).trans ho
  · refine Truthful.close ht fun hpos hpos' => ?_
    rw [hfd] at hpos' ⊢
    exact h.fd_ne hleft ho hod hpos hpos'

theorem System.findDevice_setRegistry (s : System) (k i : ℕ) (devices : Option Devices)
    (name : String) :
    (s.setRegistry k devices).findDevice i name =
      if i = k then devices.bind (·.lookup name) else s.findDevice i name := by
  by_cases hi : i = k
  · subst hi
    simp [findDevice, setRegistry]
  · simp [findDevice, setRegistry, hi]

/-- What can be found after the contents of one registry have been moved into a new one. -/
theorem System.findDevice_moved {k : ℕ} {devices : Devices} (hk : s.registries k = some devices)
    (i : ℕ) (name : String) :
    ((s.setRegistry k (some ∅)).placeRegistry devices).findDevice i name =
      if i = s.registryCount then s.findDevice k name
      else if i = k then none else s.findDevice i name := by
  by_cases hi : i = s.registryCount
  · subst hi
    simp [System.findDevice, System.placeRegistry, System.setRegistry, hk]
  · by_cases hik : i = k
    · subst hik
      simp [System.findDevice, System.placeRegistry, System.setRegistry, hi]
    · simp [System.findDevice, System.placeRegistry, System.setRegistry, hi, hik]

/-- And after they have been moved into an old one. -/
theorem System.findDevice_assigned (s : System) (lhs rhs i : ℕ) (name : String) :
    ((s.setRegistry lhs (s.registries rhs)).setRegistry rhs (some ∅)).findDevice i name =
      if i = rhs then none else if i = lhs then s.findDevice rhs name else s.findDevice i name := by
  rw [System.findDevice_setRegistry, System.findDevice_setRegistry]
  simp [System.findDevice]

theorem System.registries_destroyDevice (s : System) (d : ℕ) :
    (s.destroyDevice d).registries = s.registries := by
  rw [destroyDevice]
  split
  · rfl
  · exact registries_close _ _

/-- What is true of devices and registries as long as indices are found and match in every move:
besides the identities, that the devices of registries are marked as such and each belongs to one
registry only. -/
structure Tracked (s : System) : Prop where
  linear : Linear s
  identified : Identified s
  marked : ∀ k name d, s.findDevice k name = some d → ∃ o, s.objects d = some o ∧
    o.registered = true
  owner : ∀ k k' name name' d, s.findDevice k name = some d → s.findDevice k' name' = some d →
    k = k'
  counted : ∀ k, s.registryCount ≤ k → s.registries k = none

namespace Tracked

theorem new : Tracked System.new where
  linear := Linear.new
  identified := by constructor <;> simp [System.new, System.findDevice]
  marked := by simp [System.new, System.findDevice]
  owner := by simp [System.new, System.findDevice]
  counted _ _ := rfl

/-- Devices that are in no registry may come, go and change as long as they stay truthful. -/
theorem of_objects (h : Tracked s) (hl : Linear t) (hreg : t.registries = s.registries)
    (hcount : t.registryCount = s.registryCount)
    (hkeep : ∀ k name d o, s.findDevice k name = some d → s.objects d = some o →
      o.registered = true → t.objects d = some o)
    (htrue : ∀ d o, t.objects d = some o → Truthful t.files o.toTunDevice)
    (hempty : ∀ d o, t.objects d = some o → Emptied o) : Tracked t := by
  have hfind : ∀ k name, t.findDevice k name = s.findDevice k name := fun k name => by
    rw [System.findDevice, System.findDevice, hreg]
  refine ⟨hl, ⟨htrue, hempty, ?_⟩, ?_, ?_, ?_⟩
  · intro k name d hd
    rw [hfind] at hd
    obtain ⟨o, ho, hname⟩ := h.identified.stored k name d hd
    obtain ⟨o', ho', hr⟩ := h.marked k name d hd
    obtain rfl : o = o' := by simpa [ho] using ho'
    exact ⟨o, hkeep k name d o hd ho hr, hname⟩
  · intro k name d hd
    rw [hfind] at hd
    obtain ⟨o, ho, hr⟩ := h.marked k name d hd
    exact ⟨o, hkeep k name d o hd ho hr, hr⟩
  · intro k k' name name' d hd hd'
    rw [hfind] at hd hd'
    exact h.owner k k' name name' d hd hd'
  · intro k hk
    rw [hreg]
    exact h.counted k (by omega)

/-- Registries may drop entries, and a whole map may go from one registry to another. -/
theorem relocate (h : Tracked s) (hl : Linear t) (hobj : t.objects = s.objects)
    (hfiles : t.files = s.files) (origin : ℕ → ℕ)
    (hfind : ∀ k name d, t.findDevice k name = some d → s.findDevice (origin k) name = some d)
    (hinj : ∀ k k' name name' d, t.findDevice k name = some d → t.findDevice k' name' = some d →
      origin k = origin k' → k = k')
    (hcounted : ∀ k, t.registryCount ≤ k → t.registries k = none) : Tracked t := by
  refine ⟨hl, ⟨?_, ?_, ?_⟩, ?_, ?_, hcounted⟩
  · intro d o ho
    rw [hobj] at ho
    rw [hfiles]
    exact h.identified.truthful d o ho
  · intro d o ho
    rw [hobj] at ho
    exact h.identified.emptied d o ho
  · intro k name d hd
    rw [hobj]
    exact h.identified.stored _ name d (hfind k name d hd)
  · intro k name d hd
    rw [hobj]
    exact h.marked _ name d (hfind k name d hd)
  · intro k k' name name' d hd hd'
    exact hinj k k' name name' d hd hd'
      (h.owner _ _ name name' d (hfind k name d hd) (hfind k' name' d hd'))

theorem lt_registryCount (h : Tracked s) {k : ℕ} (hk : s.registries k ≠ none) :
    k < s.registryCount := by
  by_contra hle
  exact hk (h.counted k (by omega))

/-- A registry drops some or all of its entries. -/
theorem shrink (h : Tracked s) {k : ℕ} {devices : Option Devices} (hk : s.registries k ≠ none)
    (hsub : ∀ name d, devices.bind (·.lookup name) = some d → s.findDevice k name = some d) :
    Tracked (s.setRegistry k devices) := by
  refine h.relocate (h.linear.setRegistry k devices) rfl rfl id ?_ (fun _ _ _ _ _ _ _ => id) ?_
  · intro i name d hd
    rw [System.findDevice_setRegistry] at hd
    split at hd
    · next he => exact he ▸ hsub name d hd
    · exact hd
  · intro i hi
    have hlt : i ≠ k := by
      have := h.lt_registryCount hk
      have : s.registryCount ≤ i := hi
      omega
    exact (Function.update_of_ne hlt ..).trans (h.counted i hi)

theorem destroyDevice (h : Tracked s) (hd : ∀ k name, s.findDevice k name ≠ some d) :
    Tracked (s.destroyDevice d) := by
  have hl := h.linear.destroyDevice d
  rcases ho : s.objects d with - | o
  · rwa [System.destroyDevice, ho]
  rw [System.destroyDevice, ho] at hl ⊢
  refine h.of_objects hl (System.registries_close _ _) (System.registryCount_close _ _) ?_ ?_ ?_
  · intro k name i p hi hp _
    have hne : i ≠ d := by
      rintro rfl
      exact hd k name hi
    rw [System.objects_close]
    exact (Function.update_of_ne hne ..).trans hp
  · intro i p hp
    rw [System.objects_close] at hp
    obtain ⟨hne, hp⟩ := update_none_iff.mp hp
    have htrue := h.identified.truthful i p hp
    exact Truthful.close (s := { s with objects := Function.update s.objects d none }) htrue
      (h.linear.fd_ne ho hp hne)
  · intro i p hp
    rw [System.objects_close] at hp
    exact h.identified.emptied i p (update_none_iff.mp hp).2

theorem destroyAll (h : Tracked s) {devices : Devices}
    (hd : ∀ entry ∈ devices.entries, ∀ k name, s.findDevice k name ≠ some entry.2) :
    Tracked (s.destroyAll devices) ∧ (s.destroyAll devices).registries = s.registries := by
  rw [System.destroyAll]
  generalize devices.entries = entries at hd ⊢
  induction entries generalizing s with
  | nil => exact ⟨h, rfl⟩
  | cons entry entries ih =>
    have hreg := System.registries_destroyDevice s entry.2
    have hfirst := h.destroyDevice (hd entry List.mem_cons_self)
    obtain ⟨ht, hr⟩ := ih hfirst (by
      intro e he k name
      rw [System.findDevice, hreg]
      exact hd e (List.mem_cons_of_mem _ he) k name)
    exact ⟨ht, hr.trans hreg⟩

/-- A registry gives up all its devices: nothing else leads to them. -/
theorem clear (h : Tracked s) {k : ℕ} {devices : Devices} (hk : s.registries k = some devices)
    (empty : Option Devices) (he : ∀ name, empty.bind (·.lookup name) = none) :
    Tracked ((s.setRegistry k empty).destroyAll devices) ∧
      ((s.setRegistry k empty).destroyAll devices).registries =
        Function.update s.registries k empty := by
  have hshrunk : Tracked (s.setRegistry k empty) := by
    refine h.shrink (by simp [hk]) fun name d hd => ?_
    rw [he] at hd
    cases hd
  refine hshrunk.destroyAll fun entry hentry i name hi => ?_
  have hfound : s.findDevice k entry.1 = some entry.2 := by
    rw [System.findDevice, hk]
    exact AList.mem_lookup_iff.mpr hentry
  rw [System.findDevice_setRegistry] at hi
  split at hi
  · rw [he] at hi
    cases hi
  · next hne => exact hne (h.owner i k name entry.1 entry.2 hi hfound)

/-- A device has one name, so it is found under one name only. -/
theorem name_eq (h : Tracked s) {k k' : ℕ} {name name' : String}
    (hd : s.findDevice k name = some d) (hd' : s.findDevice k' name' = some d) : name = name' := by
  obtain ⟨o, ho, hname⟩ := h.identified.stored k name d hd
  obtain ⟨o', ho', hname'⟩ := h.identified.stored k' name' d hd'
  obtain rfl : o = o' := by simpa [ho] using ho'
  exact hname.symm.trans hname'

/-- Nothing leads to a device of a caller. -/
theorem not_found (h : Tracked s) (ho : s.objects d = some o) (hr : o.registered = false) (k : ℕ)
    (name : String) : s.findDevice k name ≠ some d := by
  intro hd
  obtain ⟨o', ho', hr'⟩ := h.marked k name d hd
  obtain rfl : o = o' := by simpa [ho] using ho'
  simp [hr] at hr'

theorem closeDevice (h : Tracked s) (k : ℕ) (name : String) :
    Tracked (s.closeDevice k name).1 := by
  rw [System.closeDevice]
  split
  · exact h
  · next devices hk =>
    split
    · exact h
    · next d hd =>
      have hfound : s.findDevice k name = some d := by rw [System.findDevice, hk]; exact hd
      have herase : ∀ n i, (some (devices.erase name)).bind (·.lookup n) = some i →
          n ≠ name ∧ s.findDevice k n = some i := by
        intro n i hi
        have hne : n ≠ name := by
          rintro rfl
          simp at hi
        rw [Option.bind_some, AList.lookup_erase_ne hne] at hi
        exact ⟨hne, by rw [System.findDevice, hk]; exact hi⟩
      refine (h.shrink (by simp [hk]) fun n i hi => (herase n i hi).2).destroyDevice ?_
      intro i n hi
      rw [System.findDevice_setRegistry] at hi
      split at hi
      · obtain ⟨hne, hi⟩ := herase n d hi
        exact hne (h.name_eq hi hfound)
      · next hne => exact hne (h.owner i k n name d hi hfound)

theorem moveRegistry (h : Tracked s) (k : ℕ) : Tracked (s.moveRegistry k) := by
  have hl := h.linear.moveRegistry k
  rw [System.moveRegistry] at hl ⊢
  split
  · exact h
  next devices hk =>
  simp only [hk] at hl
  have hlt := h.lt_registryCount (k := k) (by simp [hk])
  -- the entries of the new registry come from the one it was moved from
  refine h.relocate hl rfl rfl (fun i => if i = s.registryCount then k else i) ?_ ?_ ?_
  · intro i name d hd
    rw [System.findDevice_moved hk] at hd
    split at hd
    · next hi => simpa [hi] using hd
    · next hi =>
      split at hd
      · cases hd
      · simpa [hi] using hd
  · intro i j name name' d hi hj heq
    rw [System.findDevice_moved hk] at hi hj
    split at hi <;> split at hj
    · omega
    · next hji => split at hj <;> simp_all
    · next hii _ => split at hi <;> simp_all
    · next hii hji => simpa [hii, hji] using heq
  · intro i hi
    have hle : s.registryCount + 1 ≤ i := hi
    have h₁ : i ≠ s.registryCount := by omega
    have h₂ : i ≠ k := by omega
    simpa [System.placeRegistry, System.setRegistry, h₁, h₂] using h.counted i (by omega)

theorem assignRegistry (h : Tracked s) (lhs rhs : ℕ) : Tracked (s.assignRegistry lhs rhs) := by
  have hl := h.linear.assignRegistry lhs rhs
  rw [System.assignRegistry] at hl ⊢
  split
  · next old taken hlhs hrhs =>
    simp only [hlhs, hrhs] at hl
    obtain ⟨hclear, hreg⟩ := h.clear hlhs (some ∅) (by simp)
    generalize (s.setRegistry lhs (some ∅)).destroyAll old = u at hl hclear hreg ⊢
    have hul : u.registries lhs = some ∅ := by simp [hreg]
    have hur : u.registries rhs ≠ none := by
      by_cases he : rhs = lhs
      · simp [he, hul]
      · simp [hreg, he, hrhs]
    -- what the left registry holds afterwards comes from the right one
    refine hclear.relocate hl rfl rfl (fun i => if i = lhs then rhs else i) ?_ ?_ ?_
    · intro i name d hd
      rw [System.findDevice_assigned] at hd
      split at hd
      · cases hd
      · split at hd
        · next hi => simpa [hi] using hd
        · next hi => simpa [hi] using hd
    · intro i j name name' d hi hj heq
      rw [System.findDevice_assigned] at hi hj
      split at hi
      · cases hi
      · next hir =>
        split at hj
        · cases hj
        · next hjr =>
          by_cases hil : i = lhs <;> by_cases hjl : j = lhs <;> simp_all
    · intro i hi
      have hlhs' := hclear.lt_registryCount (k := lhs) (by simp [hul])
      have hrhs' := hclear.lt_registryCount hur
      have hle : u.registryCount ≤ i := hi
      have h₁ : i ≠ lhs := by omega
      have h₂ : i ≠ rhs := by omega
      simpa [System.setRegistry, h₁, h₂] using hclear.counted i hle
  · exact h

theorem destroyRegistry (h : Tracked s) (k : ℕ) : Tracked (s.destroyRegistry k) := by
  rw [System.destroyRegistry]
  split
  · exact h
  · next devices hk => exact (h.clear hk none fun _ => rfl).1

theorem newRegistry (h : Tracked s) : Tracked (s.placeRegistry ∅) := by
  refine h.relocate (h.linear.placeRegistry ∅) rfl rfl id ?_ (fun _ _ _ _ _ _ _ => id) ?_
  · intro i name d hd
    by_cases hi : i = s.registryCount
    · subst hi
      simp [System.findDevice, System.placeRegistry] at hd
    · simpa [System.findDevice, System.placeRegistry, hi] using hd
  · intro i hi
    have hle : s.registryCount + 1 ≤ i := hi
    have hne : i ≠ s.registryCount := by omega
    exact (Function.update_of_ne hne ..).trans (h.counted i (by omega))

/-- A new device for a descriptor that was just opened. -/
theorem place (h : Tracked s) {fd : ℕ} (hfd : s.files.file fd = none) (file : Option Interface)
    (ho : o.fd = fd) (htrue : Truthful (s.files.opened fd file) o.toTunDevice)
    (hm : o.movedFrom = false) :
    Tracked (System.place { s with files := s.files.opened fd file } o) := by
  refine h.of_objects (h.linear.place hfd file ho) rfl rfl ?_ ?_ ?_
  · intro k name d p hd hp _
    exact (Function.update_of_ne (h.linear.ne_objectCount hp) ..).trans hp
  · intro d p hp
    rcases update_some_iff.mp hp with ⟨-, rfl⟩ | ⟨-, hp⟩
    · exact htrue
    · exact (h.identified.truthful d p hp).opened hfd file
  · intro d p hp
    rcases update_some_iff.mp hp with ⟨-, rfl⟩ | ⟨-, hp⟩
    · intro hm'
      simp [hm] at hm'
    · exact h.identified.emptied d p hp

/-- A registry gets an entry for a device that is in none. -/
theorem register (h : Tracked s) {k : ℕ} {devices : Devices} (hk : s.registries k = some devices)
    (ho : s.objects d = some o) (hr : o.registered = true)
    (hnew : ∀ i name, s.findDevice i name ≠ some d) :
    Tracked (s.setRegistry k (some (devices.insert o.name d))) := by
  have hcases : ∀ i name j, (s.setRegistry k (some (devices.insert o.name d))).findDevice i name =
      some j → (i = k ∧ name = o.name ∧ j = d) ∨ s.findDevice i name = some j := by
    intro i name j hj
    rw [System.findDevice_setRegistry] at hj
    split at hj
    · next hi =>
      subst hi
      by_cases hn : name = o.name
      · subst hn
        exact .inl ⟨rfl, rfl, by simpa using hj.symm⟩
      · rw [Option.bind_some, AList.lookup_insert_ne hn] at hj
        exact .inr (by rw [System.findDevice, hk]; exact hj)
    · exact .inr hj
  refine ⟨h.linear.setRegistry _ _, ⟨h.identified.truthful, h.identified.emptied, ?_⟩, ?_, ?_, ?_⟩
  · intro i name j hj
    rcases hcases i name j hj with ⟨-, rfl, rfl⟩ | hj
    · exact ⟨o, ho, rfl⟩
    · exact h.identified.stored i name j hj
  · intro i name j hj
    rcases hcases i name j hj with ⟨-, rfl, rfl⟩ | hj
    · exact ⟨o, ho, hr⟩
    · exact h.marked i name j hj
  · intro i i' name name' j hj hj'
    rcases hcases i name j hj with ⟨rfl, -, rfl⟩ | hold
    · rcases hcases i' name' j hj' with ⟨rfl, -, -⟩ | hold'
      · rfl
      · exact absurd hold' (hnew i' name')
    · rcases hcases i' name' j hj' with ⟨rfl, -, rfl⟩ | hold'
      · exact absurd hold (hnew i name)
      · exact h.owner i i' name name' j hold hold'
  · intro i hi
    have hlt := h.lt_registryCount (k := k) (by simp [hk])
    have hle : s.registryCount ≤ i := hi
    have hne : i ≠ k := by omega
    exact (Function.update_of_ne hne ..).trans (h.counted i hle)

/-- The device that had the name before is no longer in the registry when it is destroyed. -/
theorem assign (h : Tracked s) {k : ℕ} (ho : s.objects d = some o) (hr : o.registered = true)
    (hnew : ∀ i name, s.findDevice i name ≠ some d) : Tracked (s.assign k o.name d) := by
  rw [System.assign]
  split
  · exact h
  next devices hk =>
  have hreg := h.register hk ho hr hnew
  split
  · exact hreg
  next old hold =>
  have hfound : s.findDevice k o.name = some old := by rw [System.findDevice, hk]; exact hold
  refine hreg.destroyDevice fun i name hi => ?_
  rw [System.findDevice_setRegistry] at hi
  split at hi
  · by_cases hn : name = o.name
    · subst hn
      obtain rfl : d = old := by simpa using hi
      exact hnew k o.name hfound
    · rw [Option.bind_some, AList.lookup_insert_ne hn] at hi
      have hi' : s.findDevice k name = some old := by rw [System.findDevice, hk]; exact hi
      exact hn (h.name_eq hi' hfound)
  · next hne => exact hne (h.owner i k name o.name old hi hfound)

theorem createDevice (h : Tracked s) {k : ℕ} {os : Creation}
    (hp : Possible s (.createDevice k os)) (hk : (s.registries k).isSome)
    (hm : Matching s (.createDevice k os)) : Tracked (s.createDevice k os).1 := by
  rcases System.createDevice_cases hp with hs | ⟨fd, interface, hopen, hioctl, hok⟩
  · rwa [hs]
  rw [hok, hm hk fd interface hopen hioctl]
  have htrue := truthful_opened s.files fd interface
  have hplaced := h.place (o := ⟨⟨fd, interface.index, interface.name⟩, true, false⟩)
    (hp fd hopen) (some interface) rfl htrue rfl
  refine hplaced.assign (Function.update_self ..) rfl fun i name hi => ?_
  obtain ⟨p, hp', -⟩ := h.marked i name s.objectCount hi
  exact h.linear.ne_objectCount hp' rfl

theorem dup (h : Tracked s) {os : Except ℤ ℕ} (hp : Possible s (.dup d os)) :
    Tracked (s.dup d os).1 := by
  rw [System.dup]
  split
  · exact h
  next o ho =>
  split
  · exact h
  next fd file hok =>
  obtain ⟨hos, hfile, hpos⟩ := System.dupFd_ok hok
  refine h.place (hp fd hos) file rfl (truthful_iff.mpr fun _ => ?_) rfl
  -- the copy stands for the same interface
  obtain ⟨interface, hf, hi, hn⟩ := truthful_iff.mp (h.identified.truthful d o ho) hpos
  obtain rfl : file = some interface := by simpa [hfile] using hf
  exact ⟨interface, by simp [Table.opened], hi, hn⟩

theorem moveConstruct (h : Tracked s) (d : ℕ) : Tracked (s.moveConstruct d) := by
  have hl := h.linear.moveConstruct d
  rcases s.moveConstruct_cases d with hs | ⟨o, ho, hr⟩
  · rwa [hs]
  · have hne := h.linear.ne_objectCount ho
    rw [System.moveConstruct_eq ho hr hne] at hl ⊢
    refine h.of_objects hl rfl rfl ?_ ?_ ?_
    · intro k name i p hi hp hreg
      have hid : i ≠ d := by
        rintro rfl
        exact h.not_found ho hr k name hi
      have hic := h.linear.ne_objectCount hp
      simp [hid, hic, hp]
    · intro i p hp
      rcases update_some_iff.mp hp with ⟨-, rfl⟩ | ⟨-, hp⟩
      · exact truthful_of_neg rfl
      · rcases update_some_iff.mp hp with ⟨-, rfl⟩ | ⟨-, hp⟩
        · exact h.identified.truthful d o ho
        · exact h.identified.truthful i p hp
    · intro i p hp
      rcases update_some_iff.mp hp with ⟨-, rfl⟩ | ⟨-, hp⟩
      · exact fun _ => ⟨rfl, rfl, rfl⟩
      · rcases update_some_iff.mp hp with ⟨-, rfl⟩ | ⟨-, hp⟩
        · intro hm
          cases hm
        · exact h.identified.emptied i p hp

/-- Devices other than the target of an assignment keep their descriptors. -/
theorem truthful_close (h : Tracked s) (hl : s.objects lhs = some l) {i : ℕ} {p : Object}
    (hne : i ≠ lhs) (hp : s.objects i = some p) : Truthful (s.close l.fd).files p.toTunDevice :=
  (h.identified.truthful i p hp).close (h.linear.fd_ne hl hp hne)

theorem assignSelf (h : Tracked s) (hl : s.objects lhs = some l) (hlr : l.registered = false) :
    Tracked (s.moveAssign lhs lhs) := by
  have hlin := h.linear.moveAssign lhs lhs
  rw [System.moveAssign_self hl hlr] at hlin ⊢
  refine h.of_objects hlin (by simp) (by simp) ?_ ?_ ?_
  · intro k name i p hi hp _
    have hil : i ≠ lhs := by
      rintro rfl
      exact h.not_found hl hlr k name hi
    exact (Function.update_of_ne hil ..).trans hp
  · intro i p hp
    rcases update_some_iff.mp hp with ⟨-, rfl⟩ | ⟨hil, hp⟩
    · exact truthful_of_neg rfl
    · exact h.truthful_close hl hil hp
  · intro i p hp
    rcases update_some_iff.mp hp with ⟨-, rfl⟩ | ⟨-, hp⟩
    · exact fun _ => ⟨rfl, rfl, rfl⟩
    · exact h.identified.emptied i p hp

/-- The target of a move assignment keeps its own index, which has to be right already. -/
theorem assignOther (h : Tracked s) (hl : s.objects lhs = some l) (hr : s.objects rhs = some r)
    (hlr : l.registered = false) (hrr : r.registered = false) (hne : lhs ≠ rhs)
    (hm : 0 ≤ r.fd → l.ifIndex = r.ifIndex) : Tracked (s.moveAssign lhs rhs) := by
  have hlin := h.linear.moveAssign lhs rhs
  rw [System.moveAssign_ne hl hr hlr hrr hne] at hlin ⊢
  refine h.of_objects hlin (by simp) (by simp) ?_ ?_ ?_
  · intro k name i p hi hp _
    have hil : i ≠ lhs := by
      rintro rfl
      exact h.not_found hl hlr k name hi
    have hir : i ≠ rhs := by
      rintro rfl
      exact h.not_found hr hrr k name hi
    simp [hil, hir, hp]
  · intro i p hp
    rcases update_some_iff.mp hp with ⟨-, rfl⟩ | ⟨-, hp⟩
    · exact truthful_of_neg rfl
    · rcases update_some_iff.mp hp with ⟨-, rfl⟩ | ⟨hil, hp⟩
      · refine truthful_iff.mpr fun hfd => ?_
        have htrue := truthful_iff.mp (h.truthful_close hl (Ne.symm hne) hr)
        obtain ⟨interface, hf, hi, hn⟩ := htrue hfd
        exact ⟨interface, hf, (hm hfd).trans hi, hn⟩
      · exact h.truthful_close hl hil hp
  · intro i p hp
    rcases update_some_iff.mp hp with ⟨-, rfl⟩ | ⟨-, hp⟩
    · exact fun _ => ⟨rfl, rfl, rfl⟩
    · rcases update_some_iff.mp hp with ⟨-, rfl⟩ | ⟨-, hp⟩
      · intro hm
        cases hm
      · exact h.identified.emptied i p hp

theorem moveAssign (h : Tracked s) (hm : Matching s (.moveAssign lhs rhs)) :
    Tracked (s.moveAssign lhs rhs) := by
  rcases s.moveAssign_cases lhs rhs with hs | ⟨l, r, hl, hr, hlr, hrr⟩
  · rwa [hs]
  by_cases hne : lhs = rhs
  · subst hne
    exact h.assignSelf hl hlr
  · exact h.assignOther hl hr hlr hrr hne (hm hne l r hl hr hlr hrr)

theorem destroy (h : Tracked s) (d : ℕ) : Tracked (s.destroy d) := by
  rw [System.destroy]
  split
  · exact h
  · next o ho =>
    split
    · exact h
    · next hr => exact h.destroyDevice (h.not_found ho (by simpa using hr))

theorem step (h : Tracked s) (hp : Possible s a) (hm : Matching s a) : Tracked (step s a) := by
  cases a with
  | newRegistry => exact h.newRegistry
  | createDevice k os =>
    simp only [Host.step]
    split
    · next hk => exact h.createDevice hp hk hm
    · exact h
  | closeDevice k name => exact h.closeDevice k name
  | moveRegistry k => exact h.moveRegistry k
  | assignRegistry lhs rhs => exact h.assignRegistry lhs rhs
  | destroyRegistry k => exact h.destroyRegistry k
  | dup d os => exact h.dup hp
  | moveConstruct d => exact h.moveConstruct d
  | moveAssign lhs rhs => exact h.moveAssign hm
  | destroy d => exact h.destroy d

/-- Where the indices differ, the target ends up with the index of another interface. -/
theorem matching_of_identified (h : Tracked s) (hs : Identified (s.moveAssign lhs rhs)) :
    Matching s (.moveAssign lhs rhs) := by
  intro hne l r hl hr hlr hrr hfd
  rw [System.moveAssign_ne hl hr hlr hrr hne] at hs
  have htarget := hs.truthful lhs { l with fd := r.fd, name := r.name, movedFrom := false }
    (by simp [hne])
  obtain ⟨interface, hf, hi, -⟩ := truthful_iff.mp htarget hfd
  have hsource := h.truthful_close hl (Ne.symm hne) hr
  obtain ⟨interface', hf', hi', -⟩ := truthful_iff.mp hsource hfd
  obtain rfl : interface = interface' := by
    have heq := hf.symm.trans hf'
    simpa using heq
  exact hi.trans hi'.symm

/-- A new device with another index than that of its interface stays in its registry. -/
theorem matching_of_created (h : Tracked s) {k : ℕ} {os : Creation}
    (hp : Possible s (.createDevice k os)) (hs : Identified (s.createDevice k os).1) :
    ∀ fd interface, os.openResult = .ok fd → os.ioctl = .ok interface →
      os.lookup = interface.index := by
  intro fd interface hopen hioctl
  have hfile : s.files.file fd = none := hp fd hopen
  have hcreated : (s.createDevice k os).1 =
      (System.place { s with files := s.files.opened fd (some interface) }
        ⟨⟨fd, os.lookup, interface.name⟩, true, false⟩).assign k interface.name
          s.objectCount := by
    simp only [System.createDevice, hopen, hioctl, Table.opened_opened]
  rw [hcreated] at hs
  have hlinear := h.linear.place (o := ⟨⟨fd, os.lookup, interface.name⟩, true, false⟩) hfile
    (some interface) rfl
  have hnew : s.findDevice k interface.name ≠ some s.objectCount := by
    intro hd
    obtain ⟨o, ho, -⟩ := h.marked k interface.name s.objectCount hd
    exact h.linear.ne_objectCount ho rfl
  obtain ⟨hobject, htrue⟩ := hlinear.assign_kept k interface.name
    (Function.update_self ..) hnew (truthful_opened s.files fd interface) rfl
  obtain ⟨found, hf, hi, -⟩ := truthful_iff.mp (hs.truthful _ _ hobject) (Int.natCast_nonneg fd)
  obtain ⟨kept, hf', hi', -⟩ := truthful_iff.mp htrue (Int.natCast_nonneg fd)
  obtain rfl : found = kept := by
    have heq := hf.symm.trans hf'
    simpa using heq
  exact Int.ofNat_inj.mp (hi.trans hi'.symm)

theorem identified_iff_matching (h : Tracked s) (hp : Possible s a) :
    Identified (Host.step s a) ↔ Matching s a := by
  refine ⟨fun hs => ?_, fun hm => (h.step hp hm).identified⟩
  cases a with
  | createDevice k os =>
    intro hk
    simp only [Host.step, if_pos hk] at hs
    exact h.matching_of_created hp hs
  | moveAssign lhs rhs => exact h.matching_of_identified hs
  | _ => trivial

end Tracked

/-- Devices know their interfaces exactly as long as the index of each new one is found and no move
assignment takes a descriptor over into a device with another index. -/
theorem tun_identity_iff_matching (actions : List Action)
    (h : Along step Possible .new actions) :
    Along step (fun s a => Identified (step s a)) .new actions ↔
      Along step Matching .new actions :=
  Runs.along_iff (fun _ _ hs hp => hs.identified_iff_matching hp)
    (fun _ _ hs hp hm => hs.step hp hm) Tracked.new h

/-- Two copies of one device are assigned to each other, and one is moved away. -/
theorem tun_identity_copies :
    Along step (fun s a => Identified (step s a)) .new
      [.newRegistry, .createDevice 0 ⟨.ok 3, .ok ⟨7, "tun0"⟩, 7⟩, .dup 0 (.ok 4), .dup 0 (.ok 5),
        .moveAssign 1 2, .moveConstruct 1, .closeDevice 0 "tun0"] := by
  refine (tun_identity_iff_matching _ ?_).mpr ?_
  · refine ⟨trivial, ?_, ?_, ?_, trivial, trivial, trivial, trivial⟩
    all_goals
      rintro fd ⟨⟩
      decide
  · refine ⟨trivial, ?_, trivial, trivial, ?_, trivial, trivial, trivial⟩
    · rintro - fd interface ⟨⟩ ⟨⟩
      rfl
    · rintro - l r ⟨⟩ ⟨⟩ - - -
      rfl

/-- A copy of one device is assigned to a copy of another one. -/
theorem tun_identity_mixed :
    let actions : List Action :=
      [.newRegistry, .createDevice 0 ⟨.ok 3, .ok ⟨7, "tun0"⟩, 7⟩,
        .createDevice 0 ⟨.ok 4, .ok ⟨8, "tun1"⟩, 8⟩, .dup 0 (.ok 5), .dup 1 (.ok 6),
        .moveAssign 2 3]
    let s := Runs.run step .new actions
    s.objects 2 = some ⟨⟨6, 7, "tun1"⟩, false, false⟩ ∧
      s.files.file 6 = some (some ⟨8, "tun1"⟩) ∧
      Along step Possible .new actions ∧
      ¬ Along step (fun s a => Identified (step s a)) .new actions := by
  intro actions s
  have hobject : s.objects 2 = some ⟨⟨6, 7, "tun1"⟩, false, false⟩ := by decide
  have hfile : s.files.file 6 = some (some ⟨8, "tun1"⟩) := by decide
  refine ⟨hobject, hfile, ⟨trivial, ?_, ?_, ?_, ?_, trivial, trivial⟩, ?_⟩
  iterate 4
    · rintro fd ⟨⟩
      decide
  rintro ⟨-, -, -, -, -, hlast, -⟩
  obtain ⟨interface, hf, hi, -⟩ := truthful_iff.mp (hlast.truthful 2 _ hobject) (by decide)
  obtain rfl : ⟨8, "tun1"⟩ = interface := by
    have heq := hfile.symm.trans hf
    simpa using heq
  exact absurd hi (by decide)

end Wetnork.Host
