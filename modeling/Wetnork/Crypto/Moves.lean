import Wetnork.Library.History
import Wetnork.Crypto.Session

/-! The session as an automaton on histories. -/
namespace Wetnork.Crypto

abbrev Log := List Event

def Event.assign (state : State) : Event → State
  | .assigned new => new
  | _ => state

/-- The value of `_state` after a history. -/
def stateAfter (l : Log) : State := l.foldl Event.assign .invalid

@[simp] theorem stateAfter_append (l es : Log) :
    stateAfter (l ++ es) = es.foldl Event.assign (stateAfter l) := List.foldl_append

/-- States in which `gnutls_handshake` may be called; `late` admits the calls that `open` and
`handleData` still make when a listener has closed the session in between. -/
def Handshaking (late : Prop) (state : State) : Prop :=
  state = .opening ∨ state = .renegotiating ∨ (late ∧ state = .closed)

/-- Data is received in state `Open`, or right after a handshake that met application data. -/
def Receiving (late : Prop) (l : Log) : Prop :=
  stateAfter l = State.open ∨
    (l.getLast? = some (.handshake GNUTLS_E_GOT_APPLICATION_DATA) ∧
      Handshaking late (stateAfter l))

theorem receiving_ne_invalid {late : Prop} {l : Log} (h : Receiving late l) :
    stateAfter l ≠ .invalid := by
  rcases h with h | ⟨_, h | h | ⟨_, h⟩⟩ <;> simp [h]

/-- What calls made from inside a signal can add to the history. -/
inductive CallMove (l : Log) : Log → Prop where
  | renegotiate (ret : ℤ) (hs : stateAfter l = State.open) :
      CallMove l (l ++ [Event.rehandshake ret, .assigned .renegotiating,
        .stateChanged (stateAfter l)])
  | close (ret : ℤ)
      (hs : stateAfter l ≠ .invalid ∧ stateAfter l ≠ .closed ∧ stateAfter l ≠ .aborted) :
      CallMove l (l ++ [Event.bye ret, .assigned .closed, .stateChanged (stateAfter l)])
  | send (ret : ℤ) (hs : stateAfter l = State.open) (hr : ret = GNUTLS_E_AGAIN ∨ 0 ≤ ret) :
      CallMove l (l ++ [Event.recordSend ret])
  | sendFails (ret : ℤ) (hs : stateAfter l = State.open) (ha : ret ≠ GNUTLS_E_AGAIN)
      (hr : ret < 0) : CallMove l (l ++ [Event.recordSend ret, .cryptoException ret])

/-- Everything a session can add to its history between two signals or gnutls calls. -/
inductive Move (late : Prop) (l : Log) : Log → Prop where
  | call {l' : Log} (h : CallMove l l') : Move late l l'
  | start (hs : stateAfter l = .invalid) :
      Move late l (l ++ [Event.assigned .opening, .stateChanged .invalid])
  | handshakeData (hs : Handshaking late (stateAfter l)) :
      Move late l (l ++ [Event.handshake GNUTLS_E_GOT_APPLICATION_DATA])
  | handshakeAgain (hs : Handshaking late (stateAfter l)) :
      Move late l (l ++ [Event.handshake GNUTLS_E_AGAIN])
  | handshakeSuccess (hs : Handshaking late (stateAfter l)) :
      Move late l (l ++ [Event.handshake GNUTLS_E_SUCCESS, .assigned State.open,
        .stateChanged (stateAfter l)])
  | handshakeFails (ret : ℤ) (hs : Handshaking late (stateAfter l))
      (hr : ret ≠ GNUTLS_E_GOT_APPLICATION_DATA ∧ ret ≠ GNUTLS_E_AGAIN ∧ ret ≠ GNUTLS_E_SUCCESS) :
      Move late l (l ++ [Event.handshake ret, .assigned .aborted, .cryptoException ret])
  | recvRehandshake (hs : Receiving late l) :
      Move late l (l ++ [Event.recordRecv GNUTLS_E_REHANDSHAKE, .assigned .renegotiating,
        .stateChanged (stateAfter l)])
  | recvFails (ret : ℤ) (hs : Receiving late l) (hr : ret < 0 ∧ ret ≠ GNUTLS_E_REHANDSHAKE) :
      Move late l (l ++ [Event.recordRecv ret, .assigned .aborted, .cryptoException ret])
  | recvBye (ret : ℤ) (hs : Receiving late l) (hc : stateAfter l ≠ .closed) :
      Move late l (l ++ [Event.recordRecv 0, .bye ret, .assigned .closed,
        .stateChanged (stateAfter l)])
  | recvClosed (hs : Receiving late l) (hc : stateAfter l = .closed) :
      Move late l (l ++ [Event.recordRecv 0, .assigned .closed, .stateChanged .closed])
  | recvData (ret : ℤ) (packet : Packet) (hs : Receiving late l) (hr : 0 < ret) :
      Move late l (l ++ [Event.recordRecv ret, .propagate packet])

variable {late : Prop} {l l' : Log}

abbrev CallPath := Relation.ReflTransGen CallMove

/-- Histories the automaton can produce. -/
abbrev Path (late : Prop) (l : Log) : Prop := Relation.ReflTransGen (Move late) [] l

theorem path_calls (h : Path late l) (hc : CallPath l l') : Path late l' :=
  h.trans (Relation.ReflTransGen.mono (fun _ _ h => Move.call h) _ _ hc)

/-- From inside a signal a session can be closed, or an open one renegotiated; nothing else. -/
theorem stateAfter_calls (hc : CallPath l l') :
    stateAfter l' = stateAfter l ∨
    (stateAfter l' = .closed ∧ stateAfter l ≠ .invalid ∧ stateAfter l ≠ .aborted) ∨
    (stateAfter l' = .renegotiating ∧ stateAfter l = State.open) := by
  induction hc with
  | refl => exact Or.inl rfl
  | tail _ hm ih =>
    cases hm with
    | renegotiate ret hs =>
      rw [hs] at ih
      rcases ih with h | ⟨h, _⟩ | ⟨h, _⟩
      · exact Or.inr (Or.inr ⟨by simp [Event.assign], h.symm⟩)
      · cases h
      · cases h
    | close ret hs =>
      refine Or.inr (Or.inl ⟨by simp [Event.assign], ?_⟩)
      rcases ih with h | ⟨_, h⟩ | ⟨_, h⟩
      · exact ⟨h ▸ hs.1, h ▸ hs.2.2⟩
      · exact h
      · simp [h]
    | send ret hs hr => simpa [Event.assign] using ih
    | sendFails ret hs ha hr => simpa [Event.assign] using ih

theorem handshaking_calls (hs : Handshaking late (stateAfter l)) (hc : CallPath l l')
    (hl : late ∨ l' = l) : Handshaking late (stateAfter l') := by
  rcases hl with hl | rfl
  · rcases stateAfter_calls hc with h | ⟨h, _⟩ | ⟨h, _⟩
    · rwa [h]
    · exact Or.inr (Or.inr ⟨hl, h⟩)
    · exact Or.inr (Or.inl h)
  · exact hs

end Wetnork.Crypto
