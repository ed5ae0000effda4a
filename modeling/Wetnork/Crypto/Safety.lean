import Wetnork.Crypto.Refinement

/-! The transition graph of a session, and why it cannot be left again once it is closed. -/
namespace Wetnork.Crypto

open History

variable {env : Environment} {l l' : Log}

/-- The changes of `_state`, with `Renegotiating` allowed to be entered again. -/
inductive Transition : State → State → Prop where
  | start : Transition .invalid .opening
  | opened : Transition .opening State.open
  | reopened : Transition .renegotiating State.open
  | leave {state new : State} (hs : state = .opening ∨ state = State.open ∨ state = .renegotiating)
      (hn : new = .renegotiating ∨ new = .closed ∨ new = .aborted) : Transition state new

def State.Final (state : State) : Prop := state = .closed ∨ state = .aborted

/-- What an event of a session may assume about the events before it. -/
def Lawful (pre : Log) : Event → Prop
  | .assigned new =>
    Transition (stateAfter pre) new ∧ new ≠ .invalid ∧ ¬ (stateAfter pre).Final ∧
      (new = State.open → pre.getLast? = some (.handshake GNUTLS_E_SUCCESS))
  | .recordSend _ => stateAfter pre = State.open
  | .bye _ => ∀ ret, .bye ret ∉ pre
  | _ => True

theorem handshaking_live {state : State} (h : Handshaking False state) :
    state = .opening ∨ state = .renegotiating := by
  rcases h with h | h | ⟨hf, _⟩
  · exact Or.inl h
  · exact Or.inr h
  · exact hf.elim

theorem receiving_live (h : Receiving False l) :
    stateAfter l = .opening ∨ stateAfter l = State.open ∨ stateAfter l = .renegotiating := by
  rcases h with h | ⟨_, h⟩
  · exact Or.inr (Or.inl h)
  · exact (handshaking_live h).imp_right Or.inr

/-- Without late handshakes nothing at all happens in a final state. -/
theorem move_live (h : Move False l l') : ¬ (stateAfter l).Final := by
  have hhand : Handshaking False (stateAfter l) → ¬ (stateAfter l).Final := by
    intro hs
    rcases handshaking_live hs with h | h <;> simp [State.Final, h]
  have hrecv : Receiving False l → ¬ (stateAfter l).Final := by
    intro hs
    rcases receiving_live hs with h | h | h <;> simp [State.Final, h]
  cases h with
  | call h =>
    cases h with
    | renegotiate ret hs => simp [State.Final, hs]
    | close ret hs => simp [State.Final, hs]
    | send ret hs hr => simp [State.Final, hs]
    | sendFails ret hs ha hr => simp [State.Final, hs]
  | start hs => simp [State.Final, hs]
  | handshakeData hs => exact hhand hs
  | handshakeAgain hs => exact hhand hs
  | handshakeSuccess hs => exact hhand hs
  | handshakeFails ret hs hr => exact hhand hs
  | recvRehandshake hs => exact hrecv hs
  | recvFails ret hs hr => exact hrecv hs
  | recvBye ret hs hc => exact hrecv hs
  | recvClosed hs hc => exact hrecv hs
  | recvData ret packet hs hr => exact hrecv hs

/-- `gnutls_bye` is the last thing said: the session is closed from then on. -/
theorem closed_of_bye (h : Path False l) {ret : ℤ} (hb : .bye ret ∈ l) :
    stateAfter l = .closed := by
  induction h with
  | refl => simp at hb
  | tail _ hm ih =>
    have hlive := move_live hm
    have hnew : Event.bye ret ∉ _ := fun hb => hlive (Or.inl (ih hb))
    cases hm with
    | call h => cases h <;> simp_all [Event.assign]
    | _ => simp_all [Event.assign]

theorem no_bye_before (h : Path False l) (hm : Move False l l') (ret : ℤ) : .bye ret ∉ l :=
  fun hb => move_live hm (Or.inl (closed_of_bye h hb))

/-- Every move of the automaton is lawful, event by event. -/
theorem move_lawful (h : Path False l) (hm : Move False l l') :
    ∃ es, l' = l ++ es ∧ Continues Lawful l es := by
  have hlive := move_live hm
  have hbye := no_bye_before h hm
  have hhand : Handshaking False (stateAfter l) → Transition (stateAfter l) State.open ∧
      Transition (stateAfter l) .aborted := by
    intro hs
    rcases handshaking_live hs with h | h <;> rw [h]
    · exact ⟨.opened, .leave (by simp) (by simp)⟩
    · exact ⟨.reopened, .leave (by simp) (by simp)⟩
  have hrecv : Receiving False l → ∀ {new : State},
      (new = .renegotiating ∨ new = .closed ∨ new = .aborted) → Transition (stateAfter l) new :=
    fun hs _ hn => .leave (receiving_live hs) hn
  cases hm with
  | call hc =>
    cases hc with
    | renegotiate ret hs =>
      have ht : Transition (stateAfter l) .renegotiating := .leave (by simp [hs]) (by simp)
      exact ⟨_, rfl, by simp [Continues, Lawful, Event.assign, ht, hlive]⟩
    | close ret hs =>
      have ht : Transition (stateAfter l) .closed := by
        refine .leave ?_ (by simp)
        cases hst : stateAfter l <;> simp_all
      exact ⟨_, rfl, by simpa [Continues, Lawful, Event.assign, ht, hlive] using hbye⟩
    | send ret hs hr => exact ⟨_, rfl, by simp [Continues, Lawful, hs]⟩
    | sendFails ret hs ha hr => exact ⟨_, rfl, by simp [Continues, Lawful, hs]⟩
  | start hs =>
    have ht : Transition (stateAfter l) .opening := hs ▸ .start
    exact ⟨_, rfl, by simp [Continues, Lawful, ht, hlive]⟩
  | handshakeData hs => exact ⟨_, rfl, by simp [Continues, Lawful]⟩
  | handshakeAgain hs => exact ⟨_, rfl, by simp [Continues, Lawful]⟩
  | handshakeSuccess hs =>
    exact ⟨_, rfl, by simp [Continues, Lawful, Event.assign, hhand hs, hlive]⟩
  | handshakeFails ret hs hr =>
    exact ⟨_, rfl, by simp [Continues, Lawful, Event.assign, hhand hs, hlive]⟩
  | recvRehandshake hs =>
    exact ⟨_, rfl, by simp [Continues, Lawful, Event.assign, hrecv hs, hlive]⟩
  | recvFails ret hs hr =>
    exact ⟨_, rfl, by simp [Continues, Lawful, Event.assign, hrecv hs, hlive]⟩
  | recvBye ret hs hc =>
    exact ⟨_, rfl, by simpa [Continues, Lawful, Event.assign, hrecv hs, hlive] using hbye⟩
  | recvClosed hs hc =>
    exact (hlive (Or.inl hc)).elim
  | recvData ret packet hs hr => exact ⟨_, rfl, by simp [Continues, Lawful]⟩

theorem path_lawful (h : Path False l) : Always Lawful l := always_of_path move_lawful h

/-- With listeners that do not call back and calls of gnutls that return, every run of a session
stays on the graph: `Open` is entered only by a successful handshake, no final state is left, data
is sent only while open, and `gnutls_bye` is called at most once. -/
theorem transition_system (env : Environment) (h : env.Quiet) (fuel : ℕ)
    (operations : List Operation) :
    (run env fuel .new operations).state = stateAfter (run env fuel .new operations).log ∧
    Always Lawful (run env fuel .new operations).log :=
  ⟨run_tracks env fuel operations,
    path_lawful (run_path_of_quiet h fuel operations)⟩

/-- A session that is opened, used and closed, with every call of gnutls succeeding. -/
theorem transition_system_round :
    let env := Environment.scripted (fun _ => GNUTLS_E_SUCCESS) (fun _ => 1) (fun _ => 1)
      (fun _ => [])
    let s := run env 3 .new [.call Call.open, .readPacket (Packet.ofBytes [1]),
      .call (.write (Packet.ofBytes [2])), .call .renegotiate, .readPacket (Packet.ofBytes [3]),
      .call .close]
    s.state = .closed ∧ s.log.length = 17 ∧ s.state = stateAfter s.log ∧ Always Lawful s.log := by
  intro env s
  have hq : env.Quiet := by
    intro l call caught
    simp [env, Environment.scripted]
  exact ⟨by decide, by decide, transition_system env hq 3 _⟩

/-- Once final, `_state` keeps its value for the rest of the history. -/
def Absorbing (l : Log) : Prop :=
  ∀ pre mid post, l = pre ++ mid ++ post → (stateAfter pre).Final →
    stateAfter (pre ++ mid) = stateAfter pre

/-- An assignment in a final state assigns that state again. -/
def Kept (pre : Log) (e : Event) : Prop :=
  ∀ new, e = .assigned new → (stateAfter pre).Final → new = stateAfter pre

/-- If gnutls is called on a session that is closed already, as `open` and `handleData` do when a
listener has closed it before their signal returned, its result leaves the state alone. -/
def Undisturbed (pre : Log) : Event → Prop
  | .handshake ret =>
    stateAfter pre = .closed → ret = GNUTLS_E_GOT_APPLICATION_DATA ∨ ret = GNUTLS_E_AGAIN
  | .recordRecv ret => stateAfter pre = .closed → 0 ≤ ret
  | _ => True

theorem absorbing_iff_kept (l : Log) : Absorbing l ↔ Always Kept l := by
  constructor
  · rintro h pre e post rfl new rfl hf
    have hnew := h pre [.assigned new] post (by simp) hf
    simpa [Event.assign] using hnew
  · intro h pre mid
    induction mid using List.reverseRecOn with
    | nil => simp
    | append_singleton mid e ih =>
      intro post hl hf
      have hmid := ih (e :: post) (by simpa using hl) hf
      have he := h (pre ++ mid) e post (by simpa using hl)
      rw [← List.append_assoc, stateAfter_append, hmid]
      cases e with
      | assigned new => exact (he new rfl (hmid ▸ hf)).trans hmid
      | _ => rfl

theorem aborted_silent (h : stateAfter l = .aborted) :
    ¬ Handshaking True (stateAfter l) ∧ ¬ Receiving True l := by
  simp [Handshaking, Receiving, h]

/-- What gnutls has been called for is assigned to a session that is not aborted, perhaps to a
closed one. -/
theorem kept_assigned_iff (h : stateAfter l ≠ .aborted) (new : State) :
    Kept l (.assigned new) ↔ (stateAfter l = .closed → new = .closed) := by
  constructor
  · intro hk hc
    rw [hk new rfl (Or.inl hc), hc]
  · rintro hk _ ⟨⟩ (hc | ha)
    · rw [hk hc, hc]
    · exact (h ha).elim

theorem kept_of_silent {e : Event} (h : ∀ new, e ≠ .assigned new) : Kept l e :=
  fun new he => (h new he).elim

/-- A final state is changed only by what follows such a call. -/
theorem move_kept_iff (_ : Path True l) (hm : Move True l l') :
    ∃ es, l' = l ++ es ∧ (Continues Kept l es ↔ Continues Undisturbed l es) := by
  have hhand : Handshaking True (stateAfter l) → stateAfter l ≠ .aborted :=
    fun hs h => (aborted_silent h).1 hs
  have hrecv : Receiving True l → stateAfter l ≠ .aborted :=
    fun hs h => (aborted_silent h).2 hs
  cases hm with
  | call hc =>
    cases hc with
    | renegotiate ret hs =>
      exact ⟨_, rfl, by simp [Continues, Kept, Undisturbed, Event.assign, State.Final, hs]⟩
    | close ret hs =>
      exact ⟨_, rfl, by simp [Continues, Kept, Undisturbed, Event.assign, State.Final, hs]⟩
    | _ => exact ⟨_, rfl, by simp [Continues, Kept, Undisturbed]⟩
  | start hs => exact ⟨_, rfl, by simp [Continues, Kept, Undisturbed, State.Final, hs]⟩
  | handshakeData hs => exact ⟨_, rfl, by simp [Continues, Kept, Undisturbed]⟩
  | handshakeAgain hs => exact ⟨_, rfl, by simp [Continues, Kept, Undisturbed]⟩
  | handshakeSuccess hs =>
    exact ⟨_, rfl, by simp [Continues, kept_assigned_iff, kept_of_silent, Undisturbed, Event.assign,
      hhand hs, GNUTLS_E_SUCCESS, GNUTLS_E_GOT_APPLICATION_DATA, GNUTLS_E_AGAIN]⟩
  | handshakeFails ret hs hr =>
    exact ⟨_, rfl, by simp [Continues, kept_assigned_iff, kept_of_silent, Undisturbed, Event.assign,
      hhand hs, hr]⟩
  | recvRehandshake hs =>
    exact ⟨_, rfl, by simp [Continues, kept_assigned_iff, kept_of_silent, Undisturbed, Event.assign,
      hrecv hs, GNUTLS_E_REHANDSHAKE]⟩
  | recvFails ret hs hr =>
    exact ⟨_, rfl, by simp [Continues, kept_assigned_iff, kept_of_silent, Undisturbed, Event.assign,
      hrecv hs, hr.1.not_ge]⟩
  | recvBye ret hs hc =>
    exact ⟨_, rfl, by simp [Continues, kept_assigned_iff, kept_of_silent, Undisturbed, Event.assign,
      hrecv hs, hc]⟩
  | recvClosed hs hc =>
    exact ⟨_, rfl, by simp [Continues, Kept, Undisturbed, Event.assign, hc]⟩
  | recvData ret packet hs hr =>
    exact ⟨_, rfl, by simp [Continues, Kept, Undisturbed, hr.le]⟩

/-- Listeners may call back at any depth, and gnutls may return anything: a final state is never
left exactly if no call of gnutls that is made on a closed session has a result that changes the
state. -/
theorem final_absorbing (env : Environment) (fuel : ℕ) (operations : List Operation) :
    (run env fuel .new operations).state = stateAfter (run env fuel .new operations).log ∧
    (Absorbing (run env fuel .new operations).log ↔
      Always Undisturbed (run env fuel .new operations).log) := by
  refine ⟨run_tracks env fuel operations, ?_⟩
  rw [absorbing_iff_kept]
  exact always_iff_of_path move_kept_iff (run_path env fuel operations)

/-- A listener closes the session in the signal of `open`, which then completes its handshake. -/
theorem closed_then_open :
    let env := Environment.scripted (fun _ => GNUTLS_E_SUCCESS) (fun _ => 1) (fun _ => 1)
      (fun l => if l = [.assigned .opening, .stateChanged .invalid] then
        [.call .close false] else [])
    ¬ Absorbing (run env 2 .new [.call Call.open]).log := by
  intro env h
  have hl : (run env 2 .new [.call Call.open]).log =
      [Event.assigned .opening, .stateChanged .invalid, .bye 0, .assigned .closed] ++
      [Event.stateChanged .opening, .handshake 0, .assigned State.open] ++
      [Event.stateChanged .closed] := by decide
  have hopen := h _ _ _ hl (by simp [State.Final, stateAfter, Event.assign])
  simp [stateAfter, Event.assign] at hopen

end Wetnork.Crypto
