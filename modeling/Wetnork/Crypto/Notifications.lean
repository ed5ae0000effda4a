import Wetnork.Crypto.Refinement

/-! What a listener of `stateChanged` learns about `_state`. -/
namespace Wetnork.Crypto

open History

variable {late : Prop} {l l' : Log} {e e' : Event}

def Event.oldState? : Event → Option State
  | .stateChanged oldState => some oldState
  | _ => none

def Event.newState? : Event → Option State
  | .assigned state => some state
  | _ => none

/-- The states reported to a listener, in order. -/
def reported (l : Log) : List State := l.filterMap Event.oldState?

/-- The values of `_state`, in order. -/
def values (l : Log) : List State := .invalid :: l.filterMap Event.newState?

/-- A write that changes the value is followed at once by a signal with the previous value. -/
def Prompt (pre : Log) (e : Event) : Prop :=
  ∀ before new, pre = before ++ [Event.assigned new] → new ≠ stateAfter before →
    e = .stateChanged (stateAfter before)

/-- A signal directly follows a write, and reports the value before it. -/
def Truthful (pre : Log) (e : Event) : Prop :=
  ∀ old, e = .stateChanged old →
    ∃ before new, pre = before ++ [Event.assigned new] ∧ old = stateAfter before

/-- A signal is only raised for a change of the value. -/
def Genuine (pre : Log) (e : Event) : Prop := ∀ old, e = .stateChanged old → stateAfter pre ≠ old

/-- No write is still without its signal. -/
def Settled (l : Log) : Prop := ∀ new, l.getLast? ≠ some (.assigned new)

/-- Every change is signalled exactly once, afterwards and with the previous value, so that the
reported states and the current one are all the values `_state` has had. -/
structure Notified (l : Log) : Prop where
  prompt : Always Prompt l
  settled : Settled l
  truthful : Always Truthful l
  recorded : reported l ++ [stateAfter l] = values l

/-- A result on which the session calls `fail`. -/
def Event.Fatal : Event → Prop
  | .handshake ret =>
    ret ≠ GNUTLS_E_GOT_APPLICATION_DATA ∧ ret ≠ GNUTLS_E_AGAIN ∧ ret ≠ GNUTLS_E_SUCCESS
  | .recordRecv ret => ret < 0 ∧ ret ≠ GNUTLS_E_REHANDSHAKE
  | _ => False

/-- A result on which the session sets the state it already has. -/
def Redundant (pre : Log) : Event → Prop
  | .recordRecv ret =>
    (ret = GNUTLS_E_REHANDSHAKE ∧ stateAfter pre = .renegotiating) ∨
      (ret = 0 ∧ stateAfter pre = .closed)
  | _ => False

theorem prompt_concat : Prompt (l ++ [e']) e ↔
    ∀ new, e' = .assigned new → new ≠ stateAfter l → e = .stateChanged (stateAfter l) := by
  constructor
  · rintro h new rfl hn
    exact h l new rfl hn
  · intro h before new hl hn
    obtain ⟨rfl, rfl⟩ := List.append_singleton_inj.mp hl
    exact h new rfl hn

theorem prompt_of_settled (h : Settled l) : Prompt l e := by
  rintro before new rfl
  exact (h new (by simp)).elim

theorem truthful_concat : Truthful (l ++ [e']) e ↔
    ∀ old, e = .stateChanged old → ∃ new, e' = .assigned new ∧ old = stateAfter l := by
  constructor
  · intro h old he
    obtain ⟨before, new, hl, ho⟩ := h old he
    obtain ⟨rfl, rfl⟩ := List.append_singleton_inj.mp hl
    exact ⟨new, rfl, ho⟩
  · intro h old he
    obtain ⟨new, rfl, ho⟩ := h old he
    exact ⟨l, new, rfl, ho⟩

theorem reported_append (l es : Log) :
    reported (l ++ es) = reported l ++ es.filterMap Event.oldState? := List.filterMap_append

theorem values_append (l es : Log) :
    values (l ++ es) = values l ++ es.filterMap Event.newState? := by
  rw [values, List.filterMap_append, ← List.cons_append, ← values]

theorem path_settled (h : Path late l) : Settled l := by
  induction h with
  | refl => simp [Settled]
  | tail _ hm _ =>
    cases hm with
    | call h => cases h <;> simp [Settled, List.getLast?_append]
    | _ => simp [Settled, List.getLast?_append]

theorem handshaking_ne_aborted {state : State} (h : Handshaking late state) :
    .aborted ≠ state := by
  rcases h with h | h | ⟨_, h⟩ <;> simp [h]

theorem receiving_ne_aborted (h : Receiving late l) : .aborted ≠ stateAfter l := by
  rcases h with h | ⟨_, h⟩
  · simp [h]
  · exact handshaking_ne_aborted h

/-- Only `fail` changes the state without a signal. -/
theorem move_prompt_iff (h : Path late l) (hm : Move late l l') :
    ∃ es, l' = l ++ es ∧ (Continues Prompt l es ↔ Continues (fun _ e => ¬ e.Fatal) l es) := by
  have hl : ∀ e, Prompt l e := fun e => prompt_of_settled (path_settled h)
  cases hm with
  | call hc =>
    cases hc <;> refine ⟨_, rfl, ?_⟩ <;>
      simp [-List.append_assoc, Continues, prompt_concat, hl, Event.Fatal, Event.assign]
  | start hs =>
    refine ⟨_, rfl, ?_⟩
    simp [-List.append_assoc, Continues, prompt_concat, hl, Event.Fatal, hs]
  | handshakeFails ret hs hr =>
    refine ⟨_, rfl, ?_⟩
    have hne := handshaking_ne_aborted hs
    simp [-List.append_assoc, Continues, prompt_concat, Event.Fatal, Event.assign, hr, hne]
  | recvFails ret hs hr =>
    refine ⟨_, rfl, ?_⟩
    have hne := receiving_ne_aborted hs
    simp [-List.append_assoc, Continues, prompt_concat, Event.Fatal, Event.assign, hr, hne]
  | recvClosed hs hc =>
    refine ⟨_, rfl, ?_⟩
    simp [-List.append_assoc, Continues, prompt_concat, hl, Event.Fatal, Event.assign, hc]
  | recvData ret packet hs hr =>
    refine ⟨_, rfl, ?_⟩
    simp [-List.append_assoc, Continues, prompt_concat, hl, Event.Fatal, hr.le]
  | _ =>
    refine ⟨_, rfl, ?_⟩
    simp [-List.append_assoc, Continues, prompt_concat, hl, Event.Fatal, Event.assign]

theorem move_truthful (_ : Path late l) (hm : Move late l l') :
    ∃ es, l' = l ++ es ∧ Continues Truthful l es := by
  have hl : ∀ e, (∀ old, e ≠ .stateChanged old) → Truthful l e :=
    fun e he old h => (he old h).elim
  cases hm with
  | call hc =>
    cases hc <;> refine ⟨_, rfl, ?_⟩ <;>
      simp [-List.append_assoc, Continues, truthful_concat, hl, Event.assign]
  | start hs =>
    refine ⟨_, rfl, ?_⟩
    simp [-List.append_assoc, Continues, truthful_concat, hl, hs]
  | recvClosed hs hc =>
    refine ⟨_, rfl, ?_⟩
    simp [-List.append_assoc, Continues, truthful_concat, hl, Event.assign, hc]
  | _ =>
    refine ⟨_, rfl, ?_⟩
    simp [-List.append_assoc, Continues, truthful_concat, hl, Event.assign]

/-- Two moves write the value that is already there. -/
theorem move_genuine_iff (_ : Path late l) (hm : Move late l l') :
    ∃ es, l' = l ++ es ∧
      (Continues Genuine l es ↔ Continues (fun pre e => ¬ Redundant pre e) l es) := by
  cases hm with
  | call hc =>
    cases hc with
    | close ret hs =>
      exact ⟨_, rfl, by simp [Continues, Genuine, Redundant, Event.assign, hs.2.1.symm]⟩
    | renegotiate ret hs =>
      exact ⟨_, rfl, by simp [Continues, Genuine, Redundant, Event.assign, hs]⟩
    | _ => exact ⟨_, rfl, by simp [Continues, Genuine, Redundant]⟩
  | handshakeSuccess hs =>
    have hne : State.open ≠ stateAfter l := by
      rcases hs with h | h | ⟨_, h⟩ <;> simp [h]
    exact ⟨_, rfl, by simp [Continues, Genuine, Redundant, Event.assign, hne]⟩
  | recvRehandshake hs =>
    refine ⟨_, rfl, ?_⟩
    simp [Continues, Genuine, Redundant, Event.assign, GNUTLS_E_REHANDSHAKE, eq_comm]
  | recvFails ret hs hr =>
    have hz : ret ≠ 0 := by omega
    exact ⟨_, rfl, by simp [Continues, Genuine, Redundant, hr, hz]⟩
  | recvBye ret hs hc =>
    exact ⟨_, rfl, by simp [Continues, Genuine, Redundant, Event.assign, hc, Ne.symm hc,
      GNUTLS_E_REHANDSHAKE]⟩
  | recvClosed hs hc =>
    exact ⟨_, rfl, by simp [Continues, Genuine, Redundant, Event.assign, hc]⟩
  | recvData ret packet hs hr =>
    have hre : ret ≠ GNUTLS_E_REHANDSHAKE := by simp [GNUTLS_E_REHANDSHAKE]; omega
    exact ⟨_, rfl, by simp [Continues, Genuine, Redundant, hre, hr.ne']⟩
  | _ => exact ⟨_, rfl, by simp [Continues, Genuine, Redundant, Event.assign]⟩

theorem move_extends (h : Move late l l') : l <+: l' := by
  cases h with
  | call h => cases h <;> exact List.prefix_append _ _
  | _ => exact List.prefix_append _ _

/-- Without `fail`, the reported states and the current one are the values of `_state`. -/
theorem path_recorded (h : Path late l) (hf : ∀ e ∈ l, ¬ e.Fatal) :
    reported l ++ [stateAfter l] = values l := by
  induction h with
  | refl => rfl
  | tail _ hm ih =>
    have hl := (ih fun e he => hf e ((move_extends hm).subset he)).symm
    cases hm with
    | call hc =>
      cases hc <;> simp [reported_append, values_append, hl, List.filterMap_cons, Event.oldState?,
        Event.newState?, Event.assign]
    | handshakeFails ret hs hr => exact (hf (.handshake ret) (by simp) hr).elim
    | recvFails ret hs hr => exact (hf (.recordRecv ret) (by simp) hr).elim
    | start hs =>
      simp [reported_append, values_append, hl, List.filterMap_cons, Event.oldState?,
        Event.newState?, Event.assign, hs]
    | recvClosed hs hc =>
      simp [reported_append, values_append, hl, List.filterMap_cons, Event.oldState?,
        Event.newState?, Event.assign, hc]
    | _ =>
      simp [reported_append, values_append, hl, List.filterMap_cons, Event.oldState?,
        Event.newState?, Event.assign]

theorem path_notified_iff (h : Path late l) : Notified l ↔ ∀ e ∈ l, ¬ e.Fatal := by
  have hp : Always Prompt l ↔ ∀ e ∈ l, ¬ e.Fatal := by
    rw [always_iff_of_path move_prompt_iff h, always_mem]
  constructor
  · intro hn
    exact hp.mp hn.prompt
  · intro hf
    exact ⟨hp.mpr hf, path_settled h, always_of_path move_truthful h, path_recorded h hf⟩

/-- Notifications are complete and faithful in exactly the runs in which `fail` is not called, as
it writes `_state` without a signal. A signal without a change is raised exactly when the state set
is the one the session is in already. -/
theorem notified_iff (env : Environment) (fuel : ℕ) (operations : List Operation) :
    (Notified (run env fuel .new operations).log ↔
      ∀ e ∈ (run env fuel .new operations).log, ¬ e.Fatal) ∧
    (Always Genuine (run env fuel .new operations).log ↔
      Always (fun pre e => ¬ Redundant pre e) (run env fuel .new operations).log) := by
  have h := run_path env fuel operations
  exact ⟨path_notified_iff h, always_iff_of_path move_genuine_iff h⟩

/-- A fatal alert (`GNUTLS_E_FATAL_ALERT_RECEIVED`) in the first handshake goes unsignalled. -/
theorem aborted_unsignalled :
    let env := Environment.scripted (fun _ => -12) (fun _ => 1) (fun _ => 1) (fun _ => [])
    let s := run env 2 .new [.call Call.open]
    s.state = .aborted ∧ reported s.log = [.invalid] ∧
      values s.log = [.invalid, .opening, .aborted] ∧ ¬ Notified s.log := by
  intro env s
  refine ⟨by decide, by decide, by decide, fun h => ?_⟩
  have hr : reported s.log ++ [stateAfter s.log] ≠ values s.log := by decide
  exact hr h.recorded

end Wetnork.Crypto
