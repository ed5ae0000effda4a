import Mathlib.Tactic

/-! Blocks of memory under unique and shared pointers. -/
namespace Shared

/-- Whether a unique pointer owns the block, and how often it has been deleted. -/
structure Block where
  owned : Bool
  deletes : ℕ
deriving DecidableEq, Repr

/-- What all shared pointers that are copies of each other have in common. -/
structure Group where
  block : ℕ
  captures : Bool
  uses : ℕ
deriving DecidableEq, Repr

/-- A handle is a shared pointer; it refers to its group until it is destroyed. -/
structure Heap where
  blocks : List Block
  groups : List Group
  handles : List (Option ℕ)
deriving DecidableEq, Repr

namespace Heap

def empty : Heap := ⟨[], [], []⟩

def deletes (h : Heap) (b : ℕ) : ℕ := (h.blocks[b]?.map Block.deletes).getD 0

def owned (h : Heap) (b : ℕ) : Bool := h.blocks[b]?.any Block.owned

/-- The group of a handle that has not been destroyed. -/
def group? (h : Heap) (p : ℕ) : Option ℕ := h.handles[p]?.join

/-- Groups that will delete the block. -/
def captors (h : Heap) (b : ℕ) : ℕ :=
  h.groups.countP fun g => g.block = b ∧ g.captures ∧ 0 < g.uses

/-- The deletions of a block that have happened or are to come. -/
def claims (h : Heap) (b : ℕ) : ℕ := h.deletes b + h.captors b + (h.owned b).toNat

def allocated (h : Heap) (b : ℕ) : ℕ := if b < h.blocks.length then 1 else 0

def allocate (h : Heap) : Heap := { h with blocks := h.blocks ++ [⟨true, 0⟩] }

def release (h : Heap) (b : ℕ) : Heap :=
  { h with blocks := h.blocks.modify b fun x => { x with owned := false } }

/-- The destructor of a unique pointer. -/
def reset (h : Heap) (b : ℕ) : Heap :=
  { h with blocks := h.blocks.modify b fun x => if x.owned then ⟨false, x.deletes + 1⟩ else x }

def delete (h : Heap) (b : ℕ) : Heap :=
  { h with blocks := h.blocks.modify b fun x => { x with deletes := x.deletes + 1 } }

/-- The first shared pointer of a group. -/
def construct (h : Heap) (b : ℕ) (captures : Bool) : Heap :=
  { h with
    groups := h.groups ++ [⟨b, captures, 1⟩]
    handles := h.handles ++ [some h.groups.length] }

def copy (h : Heap) (p : ℕ) : Heap :=
  match h.group? p with
  | none => h
  | some g =>
    { h with
      groups := h.groups.modify g fun x => { x with uses := x.uses + 1 }
      handles := h.handles ++ [some g] }

def drop (h : Heap) (p g : ℕ) : Heap :=
  { h with
    groups := h.groups.modify g fun x => { x with uses := x.uses - 1 }
    handles := h.handles.modify p fun _ => none }

/-- The destructor of a shared pointer. -/
def destroy (h : Heap) (p : ℕ) : Heap :=
  match h.group? p with
  | none => h
  | some g =>
    match h.groups[g]? with
    | none => h
    | some x => if x.uses = 1 ∧ x.captures then (h.drop p g).delete x.block else h.drop p g

/-- Every count is the number of handles that it counts. -/
structure Counted (h : Heap) : Prop where
  block_lt : ∀ (g : ℕ) (x : Group), h.groups[g]? = some x → x.block < h.blocks.length
  group_lt : ∀ p g, h.group? p = some g → g < h.groups.length
  uses : ∀ (g : ℕ) (x : Group), h.groups[g]? = some x → x.uses = h.handles.count (some g)

end Heap

theorem countP_modify {α : Type*} {l : List α} {i : ℕ} {a : α} {q : α → Bool} {f : α → α}
    (h : l[i]? = some a) :
    (l.modify i f).countP q + (if q a then 1 else 0) =
      l.countP q + if q (f a) then 1 else 0 := by
  induction l generalizing i with
  | nil => cases h
  | cons b l ih =>
    cases i with
    | zero =>
      obtain rfl : b = a := by simpa using h
      simp only [List.modify_zero_cons, List.countP_cons]
      omega
    | succ i =>
      have := ih (by simpa using h)
      simp only [List.modify_succ_cons, List.countP_cons]
      omega

theorem getElem?_concat_join {α : Type*} (l : List (Option α)) (a : α) (i : ℕ) :
    (l ++ [some a])[i]?.join = if i = l.length then some a else l[i]?.join := by
  rcases Nat.lt_trichotomy i l.length with hi | rfl | hi
  · rw [List.getElem?_append_left hi, if_neg (by omega)]
  · simp
  · rw [List.getElem?_eq_none (by simpa using hi), if_neg (by omega),
      List.getElem?_eq_none (by omega)]

namespace Heap

variable {h : Heap} {b c p q g : ℕ} {captures : Bool}

theorem lt_of_owned (hb : h.owned b) : b < h.blocks.length := by
  by_contra hlt
  rw [owned, List.getElem?_eq_none (Nat.not_lt.mp hlt)] at hb
  cases hb

theorem lt_of_live (hp : (h.group? p).isSome) : p < h.handles.length := by
  by_contra hlt
  rw [group?, List.getElem?_eq_none (Nat.not_lt.mp hlt)] at hp
  cases hp

theorem group?_eq_some_iff : h.group? p = some g ↔ h.handles[p]? = some (some g) := by
  simp [group?, Option.join_eq_some_iff]

@[simp] theorem deletes_allocate : h.allocate.deletes b = h.deletes b := by
  simp only [deletes, allocate, List.getElem?_append, List.getElem?_singleton]
  split
  · rfl
  · next hlt =>
    rw [List.getElem?_eq_none (Nat.not_lt.mp hlt)]
    split <;> rfl

@[simp] theorem owned_allocate :
    h.allocate.owned b = (decide (b = h.blocks.length) || h.owned b) := by
  simp only [owned, allocate, List.getElem?_append, List.getElem?_singleton]
  split
  · next hlt =>
    have : b ≠ h.blocks.length := by omega
    simp [this]
  · next hlt =>
    rw [List.getElem?_eq_none (Nat.not_lt.mp hlt)]
    by_cases hb : b = h.blocks.length
    · simp [hb]
    · have : b - h.blocks.length ≠ 0 := by omega
      simp [hb, this]

@[simp] theorem captors_allocate : h.allocate.captors b = h.captors b := rfl

@[simp] theorem group?_allocate : h.allocate.group? p = h.group? p := rfl

@[simp] theorem deletes_release : (h.release b).deletes c = h.deletes c := by
  simp only [deletes, release, List.getElem?_modify]
  cases h.blocks[c]? with
  | none => rfl
  | some x => by_cases hc : b = c <;> simp [hc]

@[simp] theorem owned_release : (h.release b).owned c = (decide (c ≠ b) && h.owned c) := by
  simp only [owned, release, List.getElem?_modify]
  cases h.blocks[c]? with
  | none => simp
  | some x => by_cases hc : b = c <;> simp [hc, eq_comm]

@[simp] theorem captors_release : (h.release b).captors c = h.captors c := rfl

@[simp] theorem group?_release : (h.release b).group? p = h.group? p := rfl

@[simp] theorem deletes_reset :
    (h.reset b).deletes c = h.deletes c + if c = b ∧ h.owned b then 1 else 0 := by
  by_cases hc : b = c
  · subst hc
    cases hb : h.blocks[b]? with
    | none => simp [deletes, owned, reset, hb]
    | some x => by_cases hx : x.owned <;> simp [deletes, owned, reset, hb, hx]
  · have : c ≠ b := fun he => hc he.symm
    cases hb : h.blocks[c]? <;> simp [deletes, reset, hb, hc, this]

@[simp] theorem owned_reset : (h.reset b).owned c = (decide (c ≠ b) && h.owned c) := by
  by_cases hc : b = c
  · subst hc
    cases hb : h.blocks[b]? with
    | none => simp [owned, reset, hb]
    | some x => by_cases hx : x.owned <;> simp [owned, reset, hb, hx]
  · have : c ≠ b := fun he => hc he.symm
    cases hb : h.blocks[c]? <;> simp [owned, reset, hb, hc, this]

@[simp] theorem captors_reset : (h.reset b).captors c = h.captors c := rfl

@[simp] theorem group?_reset : (h.reset b).group? p = h.group? p := rfl

@[simp] theorem deletes_construct : (h.construct b captures).deletes c = h.deletes c := rfl

@[simp] theorem owned_construct : (h.construct b captures).owned c = h.owned c := rfl

@[simp] theorem captors_construct :
    (h.construct b captures).captors c = h.captors c + if c = b ∧ captures then 1 else 0 := by
  simp only [captors, construct, List.countP_append, List.countP_singleton, decide_eq_true_eq]
  by_cases hc : c = b
  · simp [hc]
  · have : b ≠ c := fun he => hc he.symm
    simp [hc, this]

@[simp] theorem group?_construct : (h.construct b captures).group? p =
    if p = h.handles.length then some h.groups.length else h.group? p :=
  getElem?_concat_join h.handles h.groups.length p

/-- A live handle counts. -/
theorem uses_pos (hc : h.Counted) (hp : h.group? p = some g) :
    ∃ x, h.groups[g]? = some x ∧ 0 < x.uses := by
  have hg := List.getElem?_eq_getElem (hc.group_lt p g hp)
  refine ⟨_, hg, ?_⟩
  rw [hc.uses g _ hg, List.count_pos_iff]
  exact List.mem_of_getElem? (group?_eq_some_iff.mp hp)

theorem captors_modify {x : Group} {f : Group → Group} (hg : h.groups[g]? = some x)
    (hb : (f x).block = x.block) (hc : (f x).captures = x.captures) :
    (h.groups.modify g f).countP (fun y => decide (y.block = b ∧ y.captures ∧ 0 < y.uses)) +
        (if x.block = b ∧ x.captures ∧ 0 < x.uses then 1 else 0) =
      h.captors b + if x.block = b ∧ x.captures ∧ 0 < (f x).uses then 1 else 0 := by
  have := countP_modify (q := fun y => decide (y.block = b ∧ y.captures ∧ 0 < y.uses)) (f := f) hg
  simpa [captors, hb, hc] using this

@[simp] theorem deletes_delete : (h.delete b).deletes c =
    h.deletes c + if c = b ∧ b < h.blocks.length then 1 else 0 := by
  by_cases hc : b = c
  · subst hc
    cases hb : h.blocks[b]? with
    | none => simp [deletes, delete, List.getElem?_eq_none_iff.mp hb]
    | some x => simp [deletes, delete, (List.getElem?_eq_some_iff.mp hb).1]
  · have : c ≠ b := fun he => hc he.symm
    cases hb : h.blocks[c]? <;> simp [deletes, delete, hb, hc, this]

@[simp] theorem owned_delete : (h.delete b).owned c = h.owned c := by
  by_cases hc : b = c
  · subst hc
    cases hb : h.blocks[b]? <;> simp [owned, delete, hb]
  · cases hb : h.blocks[c]? <;> simp [owned, delete, hb, hc]

@[simp] theorem captors_delete : (h.delete b).captors c = h.captors c := rfl

@[simp] theorem group?_delete : (h.delete b).group? p = h.group? p := rfl

theorem copy_eq (hp : h.group? p = some g) : h.copy p =
    { h with
      groups := h.groups.modify g fun x => { x with uses := x.uses + 1 }
      handles := h.handles ++ [some g] } := by
  simp only [copy, hp]

@[simp] theorem deletes_copy : (h.copy p).deletes b = h.deletes b := by
  unfold copy
  split <;> rfl

@[simp] theorem owned_copy : (h.copy p).owned b = h.owned b := by
  unfold copy
  split <;> rfl

theorem captors_copy (hc : h.Counted) : (h.copy p).captors b = h.captors b := by
  cases hp : h.group? p with
  | none => simp only [copy, hp]
  | some g =>
    obtain ⟨x, hg, hpos⟩ := uses_pos hc hp
    have := captors_modify (b := b) (f := fun x => { x with uses := x.uses + 1 }) hg rfl rfl
    simp only [hpos, Nat.succ_pos, and_true] at this
    rw [copy_eq hp]
    exact Nat.add_right_cancel this

theorem group?_copy (hp : h.group? p = some g) : (h.copy p).group? q =
    if q = h.handles.length then some g else h.group? q := by
  rw [copy_eq hp]
  exact getElem?_concat_join h.handles g q

theorem destroy_eq {x : Group} (hp : h.group? p = some g) (hg : h.groups[g]? = some x) :
    h.destroy p = if x.uses = 1 ∧ x.captures then (h.drop p g).delete x.block else h.drop p g := by
  simp only [destroy, hp, hg]

theorem group?_drop : (h.drop p g).group? q = if q = p then none else h.group? q := by
  simp only [group?, drop, List.getElem?_modify]
  by_cases hq : p = q
  · subst hq
    cases h.handles[p]? <;> simp
  · have : q ≠ p := fun he => hq he.symm
    cases h.handles[q]? <;> simp [hq, this]

@[simp] theorem group?_destroy (hc : h.Counted) :
    (h.destroy p).group? q = if q = p then none else h.group? q := by
  cases hp : h.group? p with
  | none =>
    by_cases hq : q = p <;> simp [destroy, hp, hq]
  | some g =>
    obtain ⟨x, hg, -⟩ := uses_pos hc hp
    rw [destroy_eq hp hg]
    split
    · rw [group?_delete, group?_drop]
    · rw [group?_drop]

@[simp] theorem owned_destroy : (h.destroy p).owned b = h.owned b := by
  unfold destroy
  split
  · rfl
  · split
    · rfl
    · split
      · exact owned_delete
      · rfl

theorem length_destroy : (h.destroy p).blocks.length = h.blocks.length := by
  unfold destroy
  split
  · rfl
  · split
    · rfl
    · split <;> simp [delete, drop]

/-- What is deleted was to be deleted. -/
theorem claims_destroy (hc : h.Counted) : (h.destroy p).claims b = h.claims b := by
  cases hp : h.group? p with
  | none => simp only [destroy, hp]
  | some g =>
    obtain ⟨x, hg, hpos⟩ := uses_pos hc hp
    have hlt := hc.block_lt g x hg
    have hcap := captors_modify (b := b) (f := fun x => { x with uses := x.uses - 1 }) hg rfl rfl
    change (h.drop p g).captors b + _ = _ at hcap
    have hdel : (h.drop p g).deletes b = h.deletes b := rfl
    have hown : (h.drop p g).owned b = h.owned b := rfl
    rw [destroy_eq hp hg]
    simp only [claims]
    split
    · next hlast =>
      have : x.block < (h.drop p g).blocks.length := hlt
      simp only [deletes_delete, captors_delete, owned_delete, hdel, hown, this]
      simp only [hlast.1, hlast.2, Nat.zero_lt_one, Nat.sub_self, Nat.lt_irrefl, and_true,
        and_false, if_false] at hcap ⊢
      simp only [eq_comm (a := b)]
      omega
    · next hmore =>
      simp only [hdel, hown]
      have hiff : (x.block = b ∧ x.captures ∧ 0 < x.uses) ↔
          (x.block = b ∧ x.captures ∧ 0 < x.uses - 1) := by
        refine and_congr_right fun _ => and_congr_right fun hcaptures => ?_
        have : x.uses ≠ 1 := fun hone => hmore ⟨hone, hcaptures⟩
        omega
      simp only [hiff] at hcap
      omega

theorem claims_allocate (h : Heap) (b : ℕ) :
    h.allocate.claims b = h.claims b + if b = h.blocks.length then 1 else 0 := by
  by_cases hb : b = h.blocks.length
  · have : h.owned b = false := by
      rw [owned, hb, List.getElem?_eq_none le_rfl]
      rfl
    simp [claims, hb, hb ▸ this]
  · simp [claims, hb]

theorem claims_reset (h : Heap) (b c : ℕ) : (h.reset b).claims c = h.claims c := by
  simp only [claims, deletes_reset, captors_reset, owned_reset]
  by_cases hc : c = b
  · subst hc
    cases h.owned c <;> simp
    omega
  · simp [hc]

/-- Handing a block over from its unique pointer to a shared one. -/
theorem claims_handOver (ho : h.owned b) (c : ℕ) :
    ((h.release b).construct b true).claims c = h.claims c := by
  simp only [claims, deletes_construct, deletes_release, captors_construct, captors_release,
    owned_construct, owned_release]
  by_cases hc : c = b
  · subst hc
    simp [ho]
    omega
  · simp [hc]

theorem claims_construct (h : Heap) (b c : ℕ) (captures : Bool) :
    (h.construct b captures).claims c = h.claims c + if c = b ∧ captures then 1 else 0 := by
  simp only [claims, deletes_construct, captors_construct, owned_construct]
  omega

theorem claims_copy (hc : h.Counted) : (h.copy p).claims b = h.claims b := by
  simp only [claims, deletes_copy, owned_copy, captors_copy hc]

theorem counted_blocks {blocks : List Block} (hc : h.Counted)
    (hlen : h.blocks.length ≤ blocks.length) : Counted { h with blocks := blocks } :=
  ⟨fun g x hx => (hc.block_lt g x hx).trans_le hlen, hc.group_lt, hc.uses⟩

theorem counted_allocate (hc : h.Counted) : h.allocate.Counted :=
  counted_blocks hc (by simp)

theorem counted_release (hc : h.Counted) : (h.release b).Counted :=
  counted_blocks hc (by simp)

theorem counted_reset (hc : h.Counted) : (h.reset b).Counted :=
  counted_blocks hc (by simp)

theorem counted_construct (hc : h.Counted) (hb : b < h.blocks.length) :
    (h.construct b captures).Counted := by
  have hcases : ∀ (g : ℕ) (x : Group), (h.construct b captures).groups[g]? = some x →
      h.groups[g]? = some x ∧ g ≠ h.groups.length ∨
        g = h.groups.length ∧ x = ⟨b, captures, 1⟩ := by
    intro g x hg
    rcases Nat.lt_trichotomy g h.groups.length with hlt | rfl | hlt
    · rw [construct, List.getElem?_append_left hlt] at hg
      exact Or.inl ⟨hg, by omega⟩
    · exact Or.inr ⟨rfl, by simpa [construct, eq_comm] using hg⟩
    · rw [List.getElem?_eq_none (by simpa [construct] using hlt)] at hg
      cases hg
  refine ⟨fun g x hg => ?_, fun p g hp => ?_, fun g x hg => ?_⟩
  · rcases hcases g x hg with ⟨hg, -⟩ | ⟨-, rfl⟩
    · exact hc.block_lt g x hg
    · exact hb
  · rw [group?_construct] at hp
    simp only [construct, List.length_append, List.length_singleton]
    split at hp
    · obtain rfl := Option.some.inj hp
      exact Nat.lt_succ_self _
    · exact (hc.group_lt p g hp).trans (Nat.lt_succ_self _)
  · simp only [construct, List.count_append]
    rcases hcases g x hg with ⟨hg, hne⟩ | ⟨rfl, rfl⟩
    · simp [hc.uses g x hg, hne.symm]
    · have : List.count (some h.groups.length) h.handles = 0 := by
        rw [List.count_eq_zero]
        intro hmem
        obtain ⟨p, hp⟩ := List.getElem?_of_mem hmem
        exact Nat.lt_irrefl _ (hc.group_lt p _ (group?_eq_some_iff.mpr hp))
      simp [this]

/-- Counting one group anew. -/
theorem counted_modify {f : ℕ → ℕ} {handles : List (Option ℕ)} (hc : h.Counted)
    (hlt : ∀ p k : ℕ, handles[p]?.join = some k → k < h.groups.length)
    (hcount : ∀ k, handles.count (some k) =
      if g = k then f (h.handles.count (some k)) else h.handles.count (some k)) :
    Counted { h with
      groups := h.groups.modify g fun x => { x with uses := f x.uses }
      handles := handles } := by
  have hcases : ∀ (k : ℕ) (x : Group),
      (h.groups.modify g fun x => { x with uses := f x.uses })[k]? = some x →
      ∃ y, h.groups[k]? = some y ∧ x.block = y.block ∧
        x.uses = if g = k then f y.uses else y.uses := by
    intro k x hk
    rw [List.getElem?_modify] at hk
    obtain ⟨y, hy, rfl⟩ := Option.map_eq_some_iff.mp hk
    refine ⟨y, hy, ?_⟩
    split <;> exact ⟨rfl, rfl⟩
  refine ⟨fun k x hk => ?_, fun p k hp => ?_, fun k x hk => ?_⟩
  · obtain ⟨y, hy, hb, -⟩ := hcases k x hk
    rw [hb]
    exact hc.block_lt k y hy
  · rw [List.length_modify]
    exact hlt p k hp
  · obtain ⟨y, hy, -, hu⟩ := hcases k x hk
    rw [hu, hc.uses k y hy, hcount]

theorem counted_copy (hc : h.Counted) : (h.copy p).Counted := by
  cases hp : h.group? p with
  | none => simpa only [copy, hp] using hc
  | some g =>
    rw [copy_eq hp]
    refine counted_modify hc (fun q k hq => ?_) fun k => ?_
    · rw [getElem?_concat_join] at hq
      split at hq
      · obtain rfl := Option.some.inj hq
        exact hc.group_lt p g hp
      · exact hc.group_lt q k hq
    · by_cases hk : g = k <;> simp [hk]

theorem counted_drop (hc : h.Counted) (hp : h.group? p = some g) : (h.drop p g).Counted := by
  unfold drop
  refine counted_modify (f := (· - 1)) hc (fun q k hq => ?_) fun k => ?_
  · have hq : (h.drop p g).group? q = some k := hq
    rw [group?_drop] at hq
    split at hq
    · cases hq
    · exact hc.group_lt q k hq
  · have hcount := countP_modify (q := (· == some k)) (f := fun _ => none)
      (group?_eq_some_iff.mp hp)
    simp only [← List.count_eq_countP] at hcount
    by_cases hk : g = k
    · simp [hk] at hcount ⊢
      omega
    · simp [hk] at hcount ⊢
      omega

theorem counted_destroy (hc : h.Counted) : (h.destroy p).Counted := by
  cases hp : h.group? p with
  | none => simpa only [destroy, hp] using hc
  | some g =>
    obtain ⟨x, hg, -⟩ := uses_pos hc hp
    have hd := counted_drop hc hp
    rw [destroy_eq hp hg]
    split
    · exact counted_blocks hd (by simp)
    · exact hd

/-- A living shared pointer will delete the block. -/
def Held (h : Heap) (b : ℕ) : Prop :=
  ∃ p g x, h.group? p = some g ∧ h.groups[g]? = some x ∧ x.block = b ∧ x.captures

theorem captors_pos_iff (hc : h.Counted) : 0 < h.captors b ↔ h.Held b := by
  rw [captors, List.countP_pos_iff]
  constructor
  · rintro ⟨x, hmem, hx⟩
    obtain ⟨hb, hx, hpos⟩ := of_decide_eq_true hx
    obtain ⟨g, hg⟩ := List.getElem?_of_mem hmem
    rw [hc.uses g x hg, List.count_pos_iff] at hpos
    obtain ⟨p, hp⟩ := List.getElem?_of_mem hpos
    exact ⟨p, g, x, group?_eq_some_iff.mpr hp, hg, hb, hx⟩
  · rintro ⟨p, g, x, hp, hg, hb, hx⟩
    obtain ⟨y, hy, hpos⟩ := uses_pos hc hp
    obtain rfl : y = x := Option.some.inj (hy.symm.trans hg)
    exact ⟨y, List.mem_of_getElem? hg, by simp [hb, hx, hpos]⟩

/-- A unique pointer owns the block or has deleted it. -/
def Bound (h : Heap) (b : ℕ) : Prop := h.owned b ∨ 0 < h.deletes b

theorem bound_reset (hb : h.Bound b) : (h.reset c).Bound b := by
  simp only [Bound, owned_reset, deletes_reset]
  rcases hb with hb | hb
  · by_cases hc : b = c <;> simp [hb, hc]
    subst hc
    simp [hb]
  · exact Or.inr (Nat.add_pos_left hb _)

theorem bound_destroy (hb : h.Bound b) : (h.destroy p).Bound b := by
  unfold destroy
  split
  · exact hb
  · split
    · exact hb
    · split
      · simp only [Bound, owned_delete, deletes_delete]
        exact hb.imp_right fun hb => Nat.add_pos_left hb _
      · exact hb

theorem foldl_destroy (hc : h.Counted) (l : List ℕ) :
    (l.foldl destroy h).Counted ∧ (∀ b, (l.foldl destroy h).owned b = h.owned b) ∧
      (∀ b, (l.foldl destroy h).claims b = h.claims b) ∧
      (l.foldl destroy h).blocks.length = h.blocks.length ∧
      ∀ q, (l.foldl destroy h).group? q = if q ∈ l then none else h.group? q := by
  induction l generalizing h with
  | nil => exact ⟨hc, fun _ => rfl, fun _ => rfl, rfl, fun _ => rfl⟩
  | cons p l ih =>
    obtain ⟨hcounted, howned, hclaims, hlen, hgroup⟩ := ih (counted_destroy (p := p) hc)
    refine ⟨hcounted, fun b => ?_, fun b => ?_, ?_, fun q => ?_⟩
    · rw [List.foldl_cons, howned, owned_destroy]
    · rw [List.foldl_cons, hclaims, claims_destroy hc]
    · rw [List.foldl_cons, hlen, length_destroy]
    · rw [List.foldl_cons, hgroup, group?_destroy hc]
      by_cases hq : q = p <;> simp [hq]

theorem foldl_reset (hc : h.Counted) (l : List ℕ) :
    (l.foldl reset h).Counted ∧ (∀ q, (l.foldl reset h).group? q = h.group? q) ∧
      (∀ b, (l.foldl reset h).claims b = h.claims b) ∧
      (l.foldl reset h).blocks.length = h.blocks.length ∧
      ∀ b, (l.foldl reset h).owned b = (decide (b ∉ l) && h.owned b) := by
  induction l generalizing h with
  | nil => exact ⟨hc, fun _ => rfl, fun _ => rfl, rfl, by simp⟩
  | cons c l ih =>
    obtain ⟨hcounted, hgroup, hclaims, hlen, howned⟩ := ih (counted_reset (b := c) hc)
    refine ⟨hcounted, fun q => ?_, fun b => ?_, ?_, fun b => ?_⟩
    · rw [List.foldl_cons, hgroup, group?_reset]
    · rw [List.foldl_cons, hclaims, claims_reset]
    · rw [List.foldl_cons, hlen]
      simp [reset]
    · rw [List.foldl_cons, howned, owned_reset]
      by_cases hb : b = c <;> simp [hb]

end Heap

end Shared
