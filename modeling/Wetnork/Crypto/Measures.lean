import Wetnork.Library.Outcome
import Wetnork.Crypto.Session

/-! Measures of a session that none of its methods lowers, whatever gnutls and the listeners do. -/
namespace Wetnork.Crypto

open Outcome

variable {μ : Type} [Preorder μ] {f : CryptoSession → μ} {env : Environment}
  {signal : CryptoM Unit} {fuel : ℕ}

/-- What a session consists of: entries of its history, writes to `_state`, and callbacks. -/
structure Growing (f : CryptoSession → μ) : Prop where
  logged : ∀ s event, f s ≤ f { s with log := s.log ++ [event] }
  assigned : ∀ s state, f s ≤ f { s with state := state, log := s.log ++ [Event.assigned state] }
  transported : ∀ s call, f s ≤ f (s.transport call)

theorem raises_record (hf : Growing f) (event : Event) : Raises f (record event) :=
  raises_modify fun s => hf.logged s event

theorem raises_gnutls (hf : Growing f) (reply : Reply) (event : ℤ → Event) :
    Raises f (gnutls reply event) := by
  refine raises_bind (raises_modify fun s => ?_) fun _ => raises_bind (raises_record hf _) fun _ =>
    raises_pure _
  induction reply.transport generalizing s with
  | nil => exact le_rfl
  | cons call calls ih => exact (hf.transported s call).trans (ih _)

theorem raises_setState (hf : Growing f) (h : Raises f signal) (state : State) :
    Raises f (setState signal state) := by
  refine raises_bind raises_get fun _ => raises_bind (raises_modify fun s => ?_) fun _ =>
    raises_bind (raises_record hf _) fun _ => h
  exact hf.assigned s state

theorem raises_fail (hf : Growing f) (code : ℤ) : Raises f (fail env code) := by
  refine raises_bind (raises_modify fun s => ?_) fun _ => raises_bind raises_get fun _ =>
    raises_bind (raises_record hf _) fun _ => raises_throw _
  exact hf.assigned s .aborted

/-- What `handleHandshake` does with the result of `gnutls_handshake`. -/
def handshakeResult (env : Environment) (signal : CryptoM Unit) (fuel : ℕ) (ret : ℤ) :
    CryptoM Unit :=
  if ret = GNUTLS_E_GOT_APPLICATION_DATA then
    handleData env signal fuel
  else if ret = GNUTLS_E_AGAIN then
    pure ()
  else if ret = GNUTLS_E_SUCCESS then
    setState signal State.open
  else
    fail env ret

theorem handleHandshake_succ (env : Environment) (signal : CryptoM Unit) (fuel : ℕ) :
    handleHandshake env signal (fuel + 1) =
      gnutlsHandshake env >>= handshakeResult env signal fuel := by
  rw [handleHandshake]
  rfl

/-- What `handleData` does with the result of `gnutls_record_recv`. -/
def dataResult (env : Environment) (signal : CryptoM Unit) (fuel : ℕ) (received : ℤ × Bytes) :
    CryptoM Unit :=
  let (ret, buffer) := received
  if ret < 0 then
    if ret = GNUTLS_E_REHANDSHAKE then do
      setState signal .renegotiating
      handleHandshake env signal fuel
    else
      fail env ret
  else if ret = 0 then do
    if (← get).state ≠ .closed then
      let _ ← gnutlsBye env
    setState signal .closed
  else
    propagate signal (Packet.ofBytes (buffer.take ret.toNat))

theorem handleData_succ (env : Environment) (signal : CryptoM Unit) (fuel : ℕ) :
    handleData env signal (fuel + 1) = gnutlsRecordRecv env >>= dataResult env signal fuel := by
  rw [handleData]
  rfl

theorem raises_handshakeResult (hf : Growing f) (h : Raises f signal)
    (hdata : Raises f (handleData env signal fuel)) (ret : ℤ) :
    Raises f (handshakeResult env signal fuel ret) :=
  raises_ite hdata (raises_ite (raises_pure _)
    (raises_ite (raises_setState hf h _) (raises_fail hf _)))

theorem raises_dataResult (hf : Growing f) (h : Raises f signal)
    (hhandshake : Raises f (handleHandshake env signal fuel)) (received : ℤ × Bytes) :
    Raises f (dataResult env signal fuel received) := by
  have hset := raises_setState hf h
  have hbye : Raises f (gnutlsBye env) := raises_bind raises_get fun _ => raises_gnutls hf _ _
  refine raises_ite (raises_ite (raises_bind (hset _) fun _ => hhandshake) (raises_fail hf _))
    (raises_ite (raises_bind raises_get fun _ => ?_) ?_)
  · exact raises_ite (raises_bind hbye fun _ => hset _) (hset _)
  · exact raises_bind (raises_record hf _) fun _ => h

theorem raises_handle (hf : Growing f) (h : Raises f signal) (fuel : ℕ) :
    Raises f (handleHandshake env signal fuel) ∧ Raises f (handleData env signal fuel) := by
  induction fuel with
  | zero =>
    rw [handleHandshake, handleData]
    exact ⟨raises_throw _, raises_throw _⟩
  | succ fuel ih =>
    rw [handleHandshake_succ, handleData_succ]
    constructor
    · exact raises_bind (raises_bind raises_get fun _ => raises_gnutls hf _ _)
        (raises_handshakeResult hf h ih.2)
    · exact raises_bind (raises_bind raises_get fun _ => raises_bind (raises_gnutls hf _ _)
        fun _ => raises_pure _) (raises_dataResult hf h ih.1)

theorem raises_handlePacket (hf : Growing f) (h : Raises f signal) (fuel : ℕ) :
    Raises f (handlePacket env signal fuel) :=
  raises_bind raises_get fun _ => raises_ite (raises_handle hf h fuel).1
    (raises_ite (raises_handle hf h fuel).2 (raises_throw _))

theorem raises_perform (hf : Growing f) (h : Raises f signal) (fuel : ℕ) (call : Call) :
    Raises f (perform env signal fuel call) := by
  have hset := raises_setState hf h
  cases call with
  | «open» =>
    exact raises_bind raises_get fun _ => raises_guard fun _ =>
      raises_bind (hset _) fun _ => (raises_handle hf h fuel).1
  | renegotiate =>
    exact raises_bind raises_get fun _ => raises_guard fun _ =>
      raises_bind (raises_bind raises_get fun _ => raises_gnutls hf _ _) fun _ => hset _
  | close =>
    exact raises_bind raises_get fun _ => raises_guard fun _ =>
      raises_bind (raises_bind raises_get fun _ => raises_gnutls hf _ _) fun _ => hset _
  | write packet =>
    refine raises_bind (raises_bind raises_get fun _ => raises_guard fun _ =>
      raises_bind (raises_bind raises_get fun _ => raises_gnutls hf _ _) fun _ => ?_)
      fun _ => raises_pure _
    refine raises_ite (raises_pure _) (raises_ite ?_ (raises_pure _))
    exact raises_bind (raises_record hf _) fun _ => raises_throw _

theorem raises_react {perform : Call → CryptoM Unit} (h : ∀ call, Raises f (perform call))
    (reactions : List Reaction) : Raises f (react perform reactions) := by
  induction reactions with
  | nil => exact raises_pure _
  | cons r rs ih =>
    cases r with
    | throws => exact raises_throw _
    | call call caught =>
      refine raises_ite (raises_bind (raises_tryCatch (h call) fun e => ?_) fun _ => ih)
        (raises_bind (h call) fun _ => ih)
      exact raises_ite (raises_throw _) (raises_pure _)

/-- Listeners have nothing but the methods of the session to act on it. -/
theorem raises_listeners (hf : Growing f) (env : Environment) (fuel : ℕ) :
    Raises f (listeners env fuel) := by
  induction fuel with
  | zero => exact raises_throw _
  | succ fuel ih =>
    exact raises_bind raises_get fun _ => raises_react (raises_perform hf ih fuel) _

end Wetnork.Crypto
