import Wetnork.Library.Simulation

/-! Safety properties of event histories: what each event may assume about its past. -/
namespace History

variable {ε : Type*} {P Q : List ε → ε → Prop} {l es : List ε}

/-- Every event satisfies `P` together with the events before it. -/
def Always (P : List ε → ε → Prop) (l : List ε) : Prop :=
  ∀ pre e post, l = pre ++ e :: post → P pre e

/-- The events `es`, appended to the history `l`, all satisfy `P`. -/
def Continues (P : List ε → ε → Prop) (l : List ε) : List ε → Prop
  | [] => True
  | e :: es => P l e ∧ Continues P (l ++ [e]) es

theorem always_nil : Always P [] := by
  intro pre e post h
  simp at h

theorem always_concat {e : ε} : Always P (l ++ [e]) ↔ Always P l ∧ P l e := by
  constructor
  · intro h
    refine ⟨?_, h l e [] rfl⟩
    intro pre e' post hl
    exact h pre e' (post ++ [e]) (by simp [hl])
  · rintro ⟨h, he⟩ pre e' post hl
    rcases List.eq_nil_or_concat post with rfl | ⟨post', e'', rfl⟩
    · obtain ⟨rfl, rfl⟩ := List.append_singleton_inj.mp hl
      exact he
    · have heq : l ++ [e] = (pre ++ e' :: post') ++ [e''] := by simpa using hl
      exact h pre e' post' (List.append_singleton_inj.mp heq).1

/-- The rule for a step that appends several events at once. -/
theorem always_append : Always P (l ++ es) ↔ Always P l ∧ Continues P l es := by
  induction es generalizing l with
  | nil => simp [Continues]
  | cons e es ih =>
    rw [List.append_cons, ih, always_concat, Continues, and_assoc]

/-- A history that can only be extended by events satisfying `P` satisfies it throughout. -/
theorem always_of_path {R : List ε → List ε → Prop}
    (hstep : ∀ {l l'}, Relation.ReflTransGen R [] l → R l l' →
      ∃ es, l' = l ++ es ∧ Continues P l es)
    (h : Relation.ReflTransGen R [] l) : Always P l := by
  induction h with
  | refl => exact always_nil
  | tail hp hs ih =>
    obtain ⟨es, rfl, hes⟩ := hstep hp hs
    exact always_append.mpr ⟨ih, hes⟩

/-- Two properties that agree on what each step appends agree on whole histories. -/
theorem always_iff_of_path {R : List ε → List ε → Prop}
    (hstep : ∀ {l l'}, Relation.ReflTransGen R [] l → R l l' →
      ∃ es, l' = l ++ es ∧ (Continues P l es ↔ Continues Q l es))
    (h : Relation.ReflTransGen R [] l) : Always P l ↔ Always Q l := by
  induction h with
  | refl => exact ⟨fun _ => always_nil, fun _ => always_nil⟩
  | tail hp hs ih =>
    obtain ⟨es, rfl, hes⟩ := hstep hp hs
    rw [always_append, always_append, ih, hes]

theorem always_mem {S : ε → Prop} : Always (fun _ e => S e) l ↔ ∀ e ∈ l, S e := by
  constructor
  · intro h e he
    obtain ⟨pre, post, rfl⟩ := List.append_of_mem he
    exact h pre e post rfl
  · rintro h pre e post rfl
    exact h e (by simp)

/-- The history has been extended, by events with `S` only. -/
def Adds (S : ε → Prop) (l l' : List ε) : Prop := ∃ es, l' = l ++ es ∧ ∀ e ∈ es, S e

theorem adds_refl {S : ε → Prop} : Adds S l l := ⟨[], by simp⟩

theorem adds_append {S : ε → Prop} (h : ∀ e ∈ es, S e) : Adds S l (l ++ es) := ⟨es, rfl, h⟩

theorem adds_trans {S : ε → Prop} {l₁ l₂ l₃ : List ε} (h : Adds S l₁ l₂) (h' : Adds S l₂ l₃) :
    Adds S l₁ l₃ := by
  obtain ⟨es, rfl, he⟩ := h
  obtain ⟨fs, rfl, hf⟩ := h'
  exact ⟨es ++ fs, List.append_assoc .., List.forall_mem_append.mpr ⟨he, hf⟩⟩

theorem adds_mono {S S' : ε → Prop} {l₁ l₂ : List ε} (h : Adds S l₁ l₂) (hs : ∀ e, S e → S' e) :
    Adds S' l₁ l₂ := by
  obtain ⟨es, rfl, he⟩ := h
  exact adds_append fun e hmem => hs e (he e hmem)

section Shown

variable {ω : Type*} {shows : List ε → ε → List ω}

/-- What the events of a history show, each together with the events before it. -/
def shown (shows : List ε → ε → List ω) (l : List ε) : List ω :=
  Simulation.trace (fun l e => l ++ [e]) shows [] l

theorem run_concat (es : List ε) : Runs.run (fun l e => l ++ [e]) l es = l ++ es := by
  induction es generalizing l with
  | nil => simp
  | cons e es ih =>
    rw [Runs.run_cons, ih]
    exact (List.append_cons l e es).symm

@[simp] theorem shown_concat (l : List ε) (e : ε) :
    shown shows (l ++ [e]) = shown shows l ++ shows l e := by
  rw [shown, Simulation.trace_append, run_concat]
  simp [Simulation.trace, shown]

end Shown

end History
