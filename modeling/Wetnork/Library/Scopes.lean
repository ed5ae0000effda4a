import Wetnork.Library.Shared
import Wetnork.Library.Simulation

/-! Functions whose local pointers are destroyed when they return, and what that leaves of the
blocks of memory. -/
namespace Shared

/-- The local variables of a function. -/
structure Scope where
  buffers : List ℕ
  handles : List ℕ
deriving DecidableEq, Repr

/-- The functions that are running, innermost first, and the shared pointers that are members of
objects. -/
structure State where
  heap : Heap
  scopes : List Scope
  kept : List ℕ
deriving DecidableEq, Repr

inductive Instr where
  | enter
  | leave
  | allocate
  | handOver (b : ℕ)
  | share (b : ℕ) (captures : Bool)
  | copy (p : ℕ)
  | keep (p : ℕ)
  | drop (p : ℕ)
deriving DecidableEq, Repr

namespace State

def empty : State := ⟨.empty, [], []⟩

def buffers (s : State) : List ℕ := s.scopes.flatMap Scope.buffers

/-- The shared pointers of all functions and objects. -/
def holders (s : State) : List ℕ := s.kept ++ s.scopes.flatMap Scope.handles

/-- One instruction; what the language does not let a function do has no effect. -/
def step (s : State) : Instr → State
  | .enter => { s with scopes := ⟨[], []⟩ :: s.scopes }
  | .leave =>
    match s.scopes with
    | [] => s
    | scope :: scopes =>
      { s with
        heap := scope.buffers.foldl Heap.reset (scope.handles.foldl Heap.destroy s.heap)
        scopes := scopes }
  | .allocate =>
    match s.scopes with
    | [] => s
    | ⟨buffers, handles⟩ :: scopes =>
      { s with
        heap := s.heap.allocate
        scopes := ⟨s.heap.blocks.length :: buffers, handles⟩ :: scopes }
  | .handOver b =>
    match s.scopes with
    | [] => s
    | ⟨buffers, handles⟩ :: scopes =>
      if b ∈ buffers then
        { s with
          heap := (s.heap.release b).construct b true
          scopes := ⟨buffers.erase b, s.heap.handles.length :: handles⟩ :: scopes }
      else s
  | .share b captures =>
    match s.scopes with
    | [] => s
    | ⟨buffers, handles⟩ :: scopes =>
      if s.heap.owned b then
        { s with
          heap := s.heap.construct b captures
          scopes := ⟨buffers, s.heap.handles.length :: handles⟩ :: scopes }
      else s
  | .copy p =>
    match s.scopes with
    | [] => s
    | ⟨buffers, handles⟩ :: scopes =>
      if (s.heap.group? p).isSome then
        { s with
          heap := s.heap.copy p
          scopes := ⟨buffers, s.heap.handles.length :: handles⟩ :: scopes }
      else s
  | .keep p =>
    if (s.heap.group? p).isSome then
      { s with heap := s.heap.copy p, kept := s.heap.handles.length :: s.kept }
    else s
  | .drop p =>
    if p ∈ s.kept then { s with heap := s.heap.destroy p, kept := s.kept.erase p } else s

/-- A block that comes under a shared pointer while somebody else owns it. -/
def shared (s : State) : Instr → List ℕ
  | .share b true => if s.scopes ≠ [] ∧ s.heap.owned b then [b] else []
  | _ => []

/-- Everything is destroyed by the one that has it. -/
structure Sound (s : State) : Prop where
  counted : s.heap.Counted
  owned : ∀ b, s.heap.owned b ↔ b ∈ s.buffers
  buffers : s.buffers.Nodup
  live : ∀ p, (s.heap.group? p).isSome ↔ p ∈ s.holders
  holders : s.holders.Nodup

variable {s : State} {b p : ℕ} {captures : Bool}

theorem sound_empty : empty.Sound where
  counted := ⟨nofun, nofun, nofun⟩
  owned := by simp [empty, Heap.empty, Heap.owned, State.buffers]
  buffers := List.nodup_nil
  live := by simp [empty, Heap.empty, Heap.group?, State.holders]
  holders := List.nodup_nil

theorem sound_leave (hs : s.Sound) : (s.step .leave).Sound := by
  obtain ⟨heap, scopes, kept⟩ := s
  cases scopes with
  | nil => exact hs
  | cons scope scopes =>
    obtain ⟨hd, hdowned, -, -, hdgroup⟩ := Heap.foldl_destroy hs.counted scope.handles
    obtain ⟨hr, hrgroup, -, -, hrowned⟩ := Heap.foldl_reset hd scope.buffers
    have hbuf := hs.buffers
    have hhold := hs.holders
    simp only [State.buffers, State.holders, List.flatMap_cons] at hbuf hhold
    refine ⟨hr, fun b => ?_, (List.nodup_append.mp hbuf).2.1, fun p => ?_, ?_⟩
    · have ho := hs.owned b
      simp only [State.buffers, List.flatMap_cons, List.mem_append] at ho
      have hdisj := (List.nodup_append.mp hbuf).2.2
      simp only [step, State.buffers, hrowned, hdowned, Bool.and_eq_true, decide_eq_true_eq, ho]
      grind
    · have hl := hs.live p
      simp only [State.holders, List.flatMap_cons, List.mem_append] at hl
      have hrest := (List.nodup_append.mp hhold).2
      have hdisj := (List.nodup_append.mp hrest.1).2.2
      simp only [step, State.holders, hrgroup, hdgroup, List.mem_append]
      by_cases hp : p ∈ scope.handles
      · simp only [hp, if_true, Option.isSome_none, Bool.false_eq_true, false_iff]
        grind
      · simp only [hp, if_false, hl]
        simp
    · refine hhold.sublist ?_
      exact (List.append_sublist_append_left kept).mpr (List.sublist_append_right _ _)

/-- One more shared pointer, held by the innermost function. -/
theorem live_concat (heap : Heap) {g : ℕ} (hs : s.Sound)
    (hg : ∀ q, heap.group? q = if q = s.heap.handles.length then some g else s.heap.group? q)
    {holders : List ℕ} (hh : holders.Perm (s.heap.handles.length :: s.holders)) :
    (∀ p, (heap.group? p).isSome ↔ p ∈ holders) ∧ holders.Nodup := by
  have hfresh : s.heap.handles.length ∉ s.holders := fun hmem =>
    Nat.lt_irrefl _ (Heap.lt_of_live ((hs.live _).mpr hmem))
  refine ⟨fun p => ?_, hh.nodup_iff.mpr (List.nodup_cons.mpr ⟨hfresh, hs.holders⟩)⟩
  rw [hh.mem_iff, List.mem_cons, ← hs.live p, hg]
  by_cases hp : p = s.heap.handles.length <;> simp [hp]

theorem holders_cons (kept : List ℕ) (scope : Scope) (scopes : List Scope) (p : ℕ) :
    (kept ++ (⟨scope.buffers, p :: scope.handles⟩ :: scopes).flatMap Scope.handles).Perm
      (p :: (kept ++ (scope :: scopes).flatMap Scope.handles)) := by
  simp only [List.flatMap_cons, List.cons_append]
  exact List.perm_middle

theorem sound_allocate (hs : s.Sound) : (s.step .allocate).Sound := by
  obtain ⟨heap, scopes, kept⟩ := s
  cases scopes with
  | nil => exact hs
  | cons scope scopes =>
    have hfresh : heap.blocks.length ∉ State.buffers ⟨heap, scope :: scopes, kept⟩ := fun hmem =>
      Nat.lt_irrefl _ (Heap.lt_of_owned ((hs.owned _).mpr hmem))
    refine ⟨Heap.counted_allocate hs.counted, fun b => ?_, ?_, hs.live, hs.holders⟩
    · have ho := hs.owned b
      simp only [State.buffers, List.flatMap_cons] at ho
      simp [step, State.buffers, ho]
    · exact List.nodup_cons.mpr ⟨hfresh, hs.buffers⟩

theorem sound_handOver (hs : s.Sound) : (s.step (.handOver b)).Sound := by
  obtain ⟨heap, scopes, kept⟩ := s
  cases scopes with
  | nil => exact hs
  | cons scope scopes =>
    simp only [step]
    split
    · next hb =>
      have hbuf := hs.buffers
      have hown : heap.owned b := (hs.owned b).mpr (List.mem_append_left _ hb)
      have hlt : b < (heap.release b).blocks.length := by
        simpa [Heap.release] using Heap.lt_of_owned hown
      have hlive := live_concat ((heap.release b).construct b true) hs
        (g := heap.groups.length) (fun q => Heap.group?_construct)
        (holders_cons kept scope scopes heap.handles.length)
      refine ⟨Heap.counted_construct (Heap.counted_release hs.counted) hlt, fun c => ?_, ?_,
        hlive.1, hlive.2⟩
      · have ho := hs.owned c
        simp only [State.buffers, List.flatMap_cons, List.mem_append] at ho hbuf
        simp only [State.buffers, List.flatMap_cons, List.mem_append, Heap.owned_construct,
          Heap.owned_release, Bool.and_eq_true, decide_eq_true_eq, ho]
        have hdisj := (List.nodup_append.mp hbuf).2.2
        rw [(List.nodup_append.mp hbuf).1.mem_erase_iff]
        grind
      · exact hbuf.sublist ((List.erase_sublist).append_right _)
    · exact hs

theorem sound_share (hs : s.Sound) : (s.step (.share b captures)).Sound := by
  obtain ⟨heap, scopes, kept⟩ := s
  cases scopes with
  | nil => exact hs
  | cons scope scopes =>
    simp only [step]
    split
    · next hown =>
      have hlive := live_concat (heap.construct b captures) hs
        (g := heap.groups.length) (fun q => Heap.group?_construct)
        (holders_cons kept scope scopes heap.handles.length)
      exact ⟨Heap.counted_construct hs.counted (Heap.lt_of_owned hown), hs.owned, hs.buffers,
        hlive.1, hlive.2⟩
    · exact hs

theorem sound_copy (hs : s.Sound) : (s.step (.copy p)).Sound := by
  obtain ⟨heap, scopes, kept⟩ := s
  cases scopes with
  | nil => exact hs
  | cons scope scopes =>
    simp only [step]
    split
    · next hp =>
      obtain ⟨g, hg⟩ := Option.isSome_iff_exists.mp hp
      have hlive := live_concat _ hs (fun q => Heap.group?_copy hg)
        (holders_cons kept scope scopes heap.handles.length)
      refine ⟨Heap.counted_copy hs.counted, fun b => ?_, hs.buffers, hlive.1, hlive.2⟩
      rw [Heap.owned_copy]
      exact hs.owned b
    · exact hs

theorem sound_keep (hs : s.Sound) : (s.step (.keep p)).Sound := by
  simp only [step]
  split
  · next hp =>
    obtain ⟨g, hg⟩ := Option.isSome_iff_exists.mp hp
    have hlive := live_concat _ hs (fun q => Heap.group?_copy hg) (List.Perm.refl _)
    refine ⟨Heap.counted_copy hs.counted, fun b => ?_, hs.buffers, hlive.1, hlive.2⟩
    rw [Heap.owned_copy]
    exact hs.owned b
  · exact hs

theorem sound_drop (hs : s.Sound) : (s.step (.drop p)).Sound := by
  simp only [step]
  split
  · next hp =>
    have hhold := hs.holders
    refine ⟨Heap.counted_destroy hs.counted, fun b => ?_, hs.buffers, fun q => ?_, ?_⟩
    · rw [Heap.owned_destroy]
      exact hs.owned b
    · have hl := hs.live q
      simp only [State.holders, List.mem_append] at hl hhold
      have hnodup := List.nodup_append.mp hhold
      simp only [State.holders, List.mem_append, Heap.group?_destroy hs.counted,
        hnodup.1.mem_erase_iff]
      by_cases hq : q = p
      · subst hq
        simp
        grind
      · simp [hq, hl]
    · exact hhold.sublist ((List.erase_sublist).append_right _)
  · exact hs

theorem sound_step (hs : s.Sound) (i : Instr) : (s.step i).Sound := by
  cases i with
  | enter => exact ⟨hs.counted, hs.owned, hs.buffers, hs.live, hs.holders⟩
  | leave => exact sound_leave hs
  | allocate => exact sound_allocate hs
  | handOver b => exact sound_handOver hs
  | share b captures => exact sound_share hs
  | copy p => exact sound_copy hs
  | keep p => exact sound_keep hs
  | drop p => exact sound_drop hs

theorem sound_run (hs : s.Sound) (instrs : List Instr) : (Runs.run step s instrs).Sound :=
  Runs.invariant (fun _ i hs => sound_step hs i) hs

/-- A block is to be deleted once, and once more for each time it comes under a shared pointer
while somebody else owns it. -/
theorem claims_step (hs : s.Sound) (i : Instr) (b : ℕ) :
    (s.step i).heap.claims b + s.heap.allocated b =
      s.heap.claims b + (s.step i).heap.allocated b + (s.shared i).count b := by
  cases i with
  | enter => rfl
  | leave =>
    obtain ⟨heap, scopes, kept⟩ := s
    cases scopes with
    | nil => rfl
    | cons scope scopes =>
      obtain ⟨hd, -, hdclaims, hdlen, -⟩ := Heap.foldl_destroy hs.counted scope.handles
      obtain ⟨-, -, hrclaims, hrlen, -⟩ := Heap.foldl_reset hd scope.buffers
      simp only [step, shared, List.count_nil, Heap.allocated, hrclaims, hdclaims, hrlen, hdlen]
      omega
  | allocate =>
    obtain ⟨heap, scopes, kept⟩ := s
    cases scopes with
    | nil => rfl
    | cons scope scopes =>
      have hlen : heap.allocate.blocks.length = heap.blocks.length + 1 := by simp [Heap.allocate]
      simp only [step, shared, List.count_nil, Heap.claims_allocate, Heap.allocated, hlen]
      grind
  | handOver c =>
    obtain ⟨heap, scopes, kept⟩ := s
    cases scopes with
    | nil => rfl
    | cons scope scopes =>
      simp only [step, shared, List.count_nil]
      split
      · next hc =>
        have hown : heap.owned c := (hs.owned c).mpr (List.mem_append_left _ hc)
        have hlen : ((heap.release c).construct c true).blocks.length = heap.blocks.length := by
          simp [Heap.release, Heap.construct]
        simp only [Heap.claims_handOver hown, Heap.allocated, hlen]
        omega
      · rfl
  | share c captures =>
    obtain ⟨heap, scopes, kept⟩ := s
    cases scopes with
    | nil => cases captures <;> rfl
    | cons scope scopes =>
      simp only [step]
      by_cases hown : heap.owned c
      · rw [if_pos hown]
        have hlen : (heap.construct c captures).blocks.length = heap.blocks.length := rfl
        cases captures
        · simp [shared, Heap.claims_construct, Heap.allocated, hlen]
        · simp only [shared, hown, Heap.claims_construct, Heap.allocated, hlen]
          by_cases hb : b = c
          · simp [hb]
            omega
          · have : c ≠ b := fun he => hb he.symm
            simp [hb, this]
      · rw [if_neg hown]
        cases captures <;> simp [shared, hown]
  | copy p =>
    obtain ⟨heap, scopes, kept⟩ := s
    cases scopes with
    | nil => rfl
    | cons scope scopes =>
      simp only [step, shared, List.count_nil]
      split
      · next hp =>
        obtain ⟨g, hg⟩ := Option.isSome_iff_exists.mp hp
        have hlen : (heap.copy p).blocks = heap.blocks := by rw [Heap.copy_eq hg]
        simp only [Heap.claims_copy hs.counted, Heap.allocated, hlen]
        omega
      · rfl
  | keep p =>
    simp only [step, shared, List.count_nil]
    split
    · next hp =>
      obtain ⟨g, hg⟩ := Option.isSome_iff_exists.mp hp
      have hlen : (s.heap.copy p).blocks = s.heap.blocks := by rw [Heap.copy_eq hg]
      simp only [Heap.claims_copy hs.counted, Heap.allocated, hlen]
      omega
    · rfl
  | drop p =>
    simp only [step, shared, List.count_nil]
    split
    · simp only [Heap.claims_destroy hs.counted, Heap.allocated, Heap.length_destroy]
      omega
    · rfl

theorem claims_run (hs : s.Sound) (instrs : List Instr) (b : ℕ) :
    (Runs.run step s instrs).heap.claims b + s.heap.allocated b =
      s.heap.claims b + (Runs.run step s instrs).heap.allocated b +
        (Simulation.trace step shared s instrs).count b := by
  induction instrs generalizing s with
  | nil => rfl
  | cons i instrs ih =>
    have hstep := claims_step hs i b
    have hrest := ih (sound_step hs i)
    simp only [Runs.run_cons, Simulation.trace, List.count_append]
    omega

/-- Only being handed over ends it. -/
theorem bound_step (hb : s.heap.Bound b) {i : Instr} (hi : i ≠ .handOver b) :
    (s.step i).heap.Bound b := by
  obtain ⟨heap, scopes, kept⟩ := s
  cases i with
  | enter => exact hb
  | keep p =>
    simp only [step]
    split
    · simpa only [Heap.Bound, Heap.owned_copy, Heap.deletes_copy] using hb
    · exact hb
  | drop p =>
    simp only [step]
    split
    · exact Heap.bound_destroy hb
    · exact hb
  | leave =>
    cases scopes with
    | nil => exact hb
    | cons scope scopes =>
      have hd : (Runs.run Heap.destroy heap scope.handles).Bound b :=
        Runs.invariant (I := fun h : Heap => h.Bound b) (fun _ _ h => Heap.bound_destroy h) hb
      have hr : (Runs.run Heap.reset _ scope.buffers).Bound b :=
        Runs.invariant (I := fun h : Heap => h.Bound b) (fun _ _ h => Heap.bound_reset h) hd
      exact hr
  | allocate =>
    cases scopes with
    | nil => exact hb
    | cons scope scopes =>
      simp only [step, Heap.Bound, Heap.owned_allocate, Heap.deletes_allocate, Bool.or_eq_true]
      exact hb.imp_left Or.inr
  | handOver c =>
    cases scopes with
    | nil => exact hb
    | cons scope scopes =>
      have hne : b ≠ c := fun he => hi (by rw [he])
      simp only [step]
      split
      · simpa [Heap.Bound, hne] using hb
      · exact hb
  | share c captures =>
    cases scopes with
    | nil => exact hb
    | cons scope scopes =>
      simp only [step]
      split <;> exact hb
  | copy p =>
    cases scopes with
    | nil => exact hb
    | cons scope scopes =>
      simp only [step]
      split
      · simpa only [Heap.Bound, Heap.owned_copy, Heap.deletes_copy] using hb
      · exact hb

theorem bound_run (hb : s.heap.Bound b) {instrs : List Instr} (hi : .handOver b ∉ instrs) :
    (Runs.run step s instrs).heap.Bound b := by
  refine Runs.invariant_of_mem (I := fun s : State => s.heap.Bound b) (fun i hmem s hs => ?_) hb
  refine bound_step hs ?_
  rintro rfl
  exact hi hmem

theorem lt_of_bound (hb : s.heap.Bound b) : b < s.heap.blocks.length := by
  rcases hb with hb | hb
  · exact Heap.lt_of_owned hb
  · by_contra hlt
    rw [Heap.deletes, List.getElem?_eq_none (Nat.not_lt.mp hlt)] at hb
    exact Nat.lt_irrefl 0 hb

theorem share_of_shared {instrs : List Instr}
    (hb : b ∈ Simulation.trace step shared s instrs) : .share b true ∈ instrs := by
  induction instrs generalizing s with
  | nil => cases hb
  | cons i instrs ih =>
    rcases List.mem_append.mp hb with hb | hb
    · unfold shared at hb
      split at hb
      · split at hb
        · obtain rfl := List.mem_singleton.mp hb
          exact List.mem_cons_self
        · cases hb
      · cases hb
    · exact List.mem_cons_of_mem i (ih hb)

theorem bound_of_shared {instrs : List Instr}
    (hb : b ∈ Simulation.trace step shared s instrs) (hi : .handOver b ∉ instrs) :
    (Runs.run step s instrs).heap.Bound b := by
  induction instrs generalizing s with
  | nil => cases hb
  | cons i instrs ih =>
    rw [List.mem_cons, not_or] at hi
    rcases List.mem_append.mp hb with hb | hb
    · have hown : s.heap.owned b := by
        unfold shared at hb
        split at hb
        · split at hb
          · next h =>
            obtain rfl := List.mem_singleton.mp hb
            exact h.2
          · cases hb
        · cases hb
      exact bound_run (bound_step (Or.inl hown) (Ne.symm hi.1)) hi.2
    · exact ih hb hi.2

/-- Sharing several blocks one after the other. -/
theorem shared_map (hne : s.scopes ≠ []) (blocks : List ℕ) :
    Simulation.trace step shared s (blocks.map (.share · true)) =
      blocks.filter s.heap.owned ∧
    (Runs.run step s (blocks.map (.share · true))).scopes ≠ [] ∧
    (Runs.run step s (blocks.map (.share · true))).heap.blocks = s.heap.blocks := by
  induction blocks generalizing s with
  | nil => exact ⟨rfl, hne, rfl⟩
  | cons b blocks ih =>
    obtain ⟨heap, scopes, kept⟩ := s
    cases scopes with
    | nil => exact absurd rfl hne
    | cons scope scopes =>
      have hstep : (step ⟨heap, scope :: scopes, kept⟩ (.share b true)).scopes ≠ [] ∧
          (step ⟨heap, scope :: scopes, kept⟩ (.share b true)).heap.blocks = heap.blocks := by
        simp only [step]
        split
        · exact ⟨List.cons_ne_nil _ _, rfl⟩
        · exact ⟨hne, rfl⟩
      obtain ⟨htrace, hscopes, hblocks⟩ := ih hstep.1
      refine ⟨?_, hscopes, hblocks.trans hstep.2⟩
      have howned : (step ⟨heap, scope :: scopes, kept⟩ (.share b true)).heap.owned =
          heap.owned := by
        funext c
        rw [Heap.owned, Heap.owned, hstep.2]
      rw [List.map_cons, Simulation.trace, htrace, howned, List.filter_cons]
      by_cases hb : heap.owned b <;> simp [shared, hb]

end State

end Shared
