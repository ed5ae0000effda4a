import Wetnork.Crypto.Refinement

/-! Which gnutls results let data through early, and which ones end a session. -/
namespace Wetnork.Crypto

open History

variable {late : Prop} {l l' : Log}

/-- Data is passed on only after some `gnutls_handshake` has returned success. -/
def Authenticated (pre : Log) : Event → Prop
  | .propagate _ => .handshake GNUTLS_E_SUCCESS ∈ pre
  | _ => True

/-- `gnutls_record_recv` yields no data when it is called because a handshake met application
data, unless a handshake has succeeded before. -/
def NoEarlyData (pre : Log) : Event → Prop
  | .recordRecv ret =>
    pre.getLast? = some (.handshake GNUTLS_E_GOT_APPLICATION_DATA) → 0 < ret →
      .handshake GNUTLS_E_SUCCESS ∈ pre
  | _ => True

theorem success_of_open (h : Path late l) (ho : stateAfter l = State.open) :
    .handshake GNUTLS_E_SUCCESS ∈ l := by
  induction h with
  | refl => cases ho
  | tail _ hm ih =>
    cases hm with
    | call h => cases h <;> simp_all [Event.assign]
    | _ => simp_all [Event.assign]

/-- Data comes either from an open session or from a handshake that met it. -/
theorem move_authenticated_iff (h : Path late l) (hm : Move late l l') :
    ∃ es, l' = l ++ es ∧ (Continues Authenticated l es ↔ Continues NoEarlyData l es) := by
  cases hm with
  | call hc => cases hc <;> exact ⟨_, rfl, by simp [Continues, Authenticated, NoEarlyData]⟩
  | recvRehandshake hs =>
    exact ⟨_, rfl, by simp [Continues, Authenticated, NoEarlyData, GNUTLS_E_REHANDSHAKE]⟩
  | recvFails ret hs hr =>
    have hneg : ¬ 0 < ret := by omega
    exact ⟨_, rfl, by simp [Continues, Authenticated, NoEarlyData, hneg]⟩
  | recvData ret packet hs hr =>
    refine ⟨_, rfl, ?_⟩
    rcases hs with ho | ⟨hg, _⟩
    · have hsucc := success_of_open h ho
      simp [Continues, Authenticated, NoEarlyData, hsucc]
    · simp [Continues, Authenticated, NoEarlyData, hg, hr]
  | _ => exact ⟨_, rfl, by simp [Continues, Authenticated, NoEarlyData]⟩

/-- Whatever the results and the listeners, data from an unauthenticated peer is passed on exactly
when `handleHandshake` is told of application data before its first success and reads it. -/
theorem propagate_authenticated_iff (env : Environment) (fuel : ℕ) (operations : List Operation) :
    Always Authenticated (run env fuel .new operations).log ↔
    Always NoEarlyData (run env fuel .new operations).log :=
  always_iff_of_path move_authenticated_iff (run_path env fuel operations)

/-- The very first handshake meets application data, which is passed on at once. -/
theorem early_data_propagated :
    let env := Environment.scripted (fun _ => GNUTLS_E_GOT_APPLICATION_DATA) (fun _ => 1)
      (fun _ => 1) (fun _ => [])
    ¬ Always Authenticated (run env 2 .new [.call Call.open]).log := by
  intro env h
  have hl : (run env 2 .new [.call Call.open]).log =
      [Event.assigned .opening, .stateChanged .invalid, .handshake GNUTLS_E_GOT_APPLICATION_DATA,
        .recordRecv 1] ++ .propagate (Packet.ofBytes [42]) :: [] := by decide
  have hdata := h _ _ _ hl
  simp [Authenticated, GNUTLS_E_SUCCESS, GNUTLS_E_GOT_APPLICATION_DATA] at hdata

/-- The errors a session is expected to live through. -/
def NonFatal (code : ℤ) : Prop :=
  code = GNUTLS_E_GOT_APPLICATION_DATA ∨ code = GNUTLS_E_AGAIN ∨ code = GNUTLS_E_REHANDSHAKE ∨
    code = GNUTLS_E_WARNING_ALERT_RECEIVED

/-- A result that is a success or a non-fatal error. -/
def Event.Benign : Event → Prop
  | .handshake ret => ret = GNUTLS_E_SUCCESS ∨ NonFatal ret
  | .recordRecv ret => 0 ≤ ret ∨ NonFatal ret
  | .recordSend ret => 0 ≤ ret ∨ NonFatal ret
  | .rehandshake ret => ret = GNUTLS_E_SUCCESS ∨ NonFatal ret
  | .bye ret => ret = GNUTLS_E_SUCCESS ∨ NonFatal ret
  | _ => True

/-- A result for which the place of its call has a branch of its own. -/
def Event.Handled : Event → Prop
  | .handshake ret =>
    ret = GNUTLS_E_GOT_APPLICATION_DATA ∨ ret = GNUTLS_E_AGAIN ∨ ret = GNUTLS_E_SUCCESS
  | .recordRecv ret => 0 ≤ ret ∨ ret = GNUTLS_E_REHANDSHAKE
  | .recordSend ret => 0 ≤ ret ∨ ret = GNUTLS_E_AGAIN
  | _ => True

/-- A non-fatal error at a call that treats it as fatal. -/
def Event.Misplaced : Event → Prop
  | .handshake ret => ret = GNUTLS_E_REHANDSHAKE ∨ ret = GNUTLS_E_WARNING_ALERT_RECEIVED
  | .recordRecv ret =>
    ret = GNUTLS_E_GOT_APPLICATION_DATA ∨ ret = GNUTLS_E_AGAIN ∨
      ret = GNUTLS_E_WARNING_ALERT_RECEIVED
  | .recordSend ret =>
    ret = GNUTLS_E_GOT_APPLICATION_DATA ∨ ret = GNUTLS_E_REHANDSHAKE ∨
      ret = GNUTLS_E_WARNING_ALERT_RECEIVED
  | _ => False

/-- Neither an entry into `Aborted` nor a `CryptoException`. -/
def Event.Harmless (e : Event) : Prop := e ≠ .assigned .aborted ∧ ∀ code, e ≠ .cryptoException code

theorem handled_iff {e : Event} (h : e.Benign) : e.Handled ↔ ¬ e.Misplaced := by
  cases e <;>
    simp_all only [Event.Benign, Event.Handled, Event.Misplaced, NonFatal, GNUTLS_E_SUCCESS,
      GNUTLS_E_AGAIN, GNUTLS_E_REHANDSHAKE, GNUTLS_E_GOT_APPLICATION_DATA,
      GNUTLS_E_WARNING_ALERT_RECEIVED, not_false_eq_true] <;>
    omega

theorem move_harmless_iff (_ : Path late l) (hm : Move late l l') :
    ∃ es, l' = l ++ es ∧ (Continues (fun _ e => e.Harmless) l es ↔
      Continues (fun _ e => e.Handled) l es) := by
  cases hm with
  | call hc =>
    cases hc with
    | send ret hs hr =>
      exact ⟨_, rfl, by simp [Continues, Event.Harmless, Event.Handled, hr.symm]⟩
    | sendFails ret hs ha hr =>
      exact ⟨_, rfl, by simp [Continues, Event.Harmless, Event.Handled, ha, hr]⟩
    | _ => exact ⟨_, rfl, by simp [Continues, Event.Harmless, Event.Handled]⟩
  | handshakeFails ret hs hr =>
    exact ⟨_, rfl, by simp [Continues, Event.Harmless, Event.Handled, hr]⟩
  | recvFails ret hs hr =>
    exact ⟨_, rfl, by simp [Continues, Event.Harmless, Event.Handled, hr]⟩
  | recvData ret packet hs hr =>
    exact ⟨_, rfl, by simp [Continues, Event.Harmless, Event.Handled, hr.le]⟩
  | _ => exact ⟨_, rfl, by simp [Continues, Event.Harmless, Event.Handled]⟩

/-- When every result is a success or a non-fatal error, a session survives exactly if no such
error comes from a call whose switch lacks it. -/
theorem survives_iff (env : Environment) (fuel : ℕ) (operations : List Operation)
    (h : ∀ e ∈ (run env fuel .new operations).log, e.Benign) :
    (∀ e ∈ (run env fuel .new operations).log, e.Harmless) ↔
    ∀ e ∈ (run env fuel .new operations).log, ¬ e.Misplaced := by
  rw [← always_mem, always_iff_of_path move_harmless_iff (run_path env fuel operations),
    always_mem]
  exact forall₂_congr fun e he => handled_iff (h e he)

/-- A peer that asks for a new handshake and a transport that is busy do no harm. -/
theorem survives_rehandshake :
    let env := Environment.scripted
      (fun l => if l.length = 2 then GNUTLS_E_AGAIN else GNUTLS_E_SUCCESS)
      (fun _ => GNUTLS_E_REHANDSHAKE) (fun _ => GNUTLS_E_AGAIN) (fun _ => [])
    let s := run env 2 .new [.call Call.open, .readPacket (Packet.ofBytes [1]),
      .readPacket (Packet.ofBytes [2]), .call (.write (Packet.ofBytes [3]))]
    (∀ e ∈ s.log, e.Benign) ∧ s.log.length = 13 ∧ ∀ e ∈ s.log, e.Harmless := by
  intro env s
  have hl : s.log = [.assigned .opening, .stateChanged .invalid, .handshake GNUTLS_E_AGAIN,
      .handshake GNUTLS_E_SUCCESS, .assigned State.open, .stateChanged .opening,
      .recordRecv GNUTLS_E_REHANDSHAKE, .assigned .renegotiating, .stateChanged State.open,
      .handshake GNUTLS_E_SUCCESS, .assigned State.open, .stateChanged .renegotiating,
      .recordSend GNUTLS_E_AGAIN] := by decide
  have hb : ∀ e ∈ s.log, e.Benign := by simp [hl, Event.Benign, NonFatal]
  refine ⟨hb, by rw [hl]; rfl, (survives_iff env 2 _ hb).mpr ?_⟩
  rw [show (run env 2 .new _).log = s.log from rfl, hl]
  simp [Event.Misplaced, GNUTLS_E_SUCCESS, GNUTLS_E_AGAIN, GNUTLS_E_REHANDSHAKE,
    GNUTLS_E_GOT_APPLICATION_DATA, GNUTLS_E_WARNING_ALERT_RECEIVED]

/-- A datagram that holds no record for the application aborts an open session. -/
theorem again_aborts :
    let env := Environment.scripted (fun _ => GNUTLS_E_SUCCESS) (fun _ => GNUTLS_E_AGAIN)
      (fun _ => 1) (fun _ => [])
    let s := run env 2 .new [.call Call.open, .readPacket (Packet.ofBytes [1])]
    (∀ e ∈ s.log, e.Benign) ∧ ¬ ∀ e ∈ s.log, e.Harmless := by
  intro env s
  have hl : s.log = [.assigned .opening, .stateChanged .invalid, .handshake GNUTLS_E_SUCCESS,
      .assigned State.open, .stateChanged .opening, .recordRecv GNUTLS_E_AGAIN,
      .assigned .aborted, .cryptoException GNUTLS_E_AGAIN] := by decide
  rw [hl]
  exact ⟨by simp [Event.Benign, NonFatal], by simp [Event.Harmless]⟩

end Wetnork.Crypto
