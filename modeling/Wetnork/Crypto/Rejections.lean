import Wetnork.Crypto.Measures
import Wetnork.Crypto.Refinement

/-! Operations that the state of a session does not admit. -/
namespace Wetnork.Crypto

open Outcome

variable {α β : Type} {env : Environment} {signal : CryptoM Unit} {s t : CryptoSession} {fuel : ℕ}

/-- The length of the history. -/
def steps (s : CryptoSession) : ℕ := s.log.length

theorem growing_steps : Growing steps where
  logged s event := by simp [steps]
  assigned s state := by simp [steps]
  transported s call := by
    have hlog : (s.transport call).log = s.log := (transport_keeps s [call]).2
    simp [steps, hlog]

/-- The history gets longer, unless the fuel is spent at once. -/
def Leaves (x : CryptoM α) : Prop :=
  ∀ s, Ends x s (fun _ t => steps s < steps t)
    (fun e t => steps s ≤ steps t ∧ (e ≠ .unfinished → steps s < steps t))

theorem leaves_bind {x : CryptoM α} {y : α → CryptoM β} (hx : Leaves x)
    (hy : ∀ a, Raises steps (y a)) : Leaves (x >>= y) := by
  intro s
  rw [ends_bind]
  refine ends_mono (hx s) (fun a t ht => ?_) (fun _ _ ht => ht)
  refine ends_mono (ends_of_raises (hy a) t) (fun _ u hu => lt_of_lt_of_le ht hu) ?_
  intro _ u hu
  have hlt := lt_of_lt_of_le ht hu
  exact ⟨hlt.le, fun _ => hlt⟩

theorem leaves_get {x : CryptoSession → CryptoM α} (h : ∀ s, Leaves (x s)) :
    Leaves (get >>= x) := by
  intro s
  rw [ends_bind, ends_get]
  exact h s s

theorem leaves_modify {g : CryptoSession → CryptoSession} (h : ∀ s, steps s < steps (g s)) :
    Leaves (modify g) := by
  intro s
  rw [ends_modify]
  exact h s

theorem leaves_gnutls (reply : Reply) (event : ℤ → Event) : Leaves (gnutls reply event) := by
  intro s
  apply gnutls_ends
  intro t _ ht
  simp [steps, ht]

theorem leaves_setState (h : Raises steps signal) (state : State) :
    Leaves (setState signal state) := by
  refine leaves_get fun _ => leaves_bind (leaves_modify fun s => ?_) fun _ =>
    raises_bind (raises_record growing_steps _) fun _ => h
  simp [steps]

/-- Both begin with a call of gnutls, whatever they go on to. -/
theorem leaves_handle (h : Raises steps signal) (fuel : ℕ) :
    Leaves (handleHandshake env signal fuel) ∧ Leaves (handleData env signal fuel) := by
  cases fuel with
  | zero =>
    rw [handleHandshake, handleData]
    constructor <;>
    · intro s
      simp
  | succ fuel =>
    rw [handleHandshake_succ, handleData_succ]
    constructor
    · exact leaves_bind (leaves_get fun _ => leaves_gnutls _ _)
        (raises_handshakeResult growing_steps h (raises_handle growing_steps h fuel).2)
    · exact leaves_bind (leaves_get fun _ => leaves_bind (leaves_gnutls _ _) fun _ =>
        raises_pure _) (raises_dataResult growing_steps h (raises_handle growing_steps h fuel).1)

/-- A call that gets past its guard begins with a write to `_state` or a call of gnutls. -/
theorem perform_leaves (h : Raises steps signal) (fuel : ℕ) {call : Call}
    (hc : ¬ call.Rejected s.state) :
    Ends (perform env signal fuel call) s (fun _ t => steps s < steps t)
      (fun e t => steps s ≤ steps t ∧ (e ≠ .unfinished → steps s < steps t)) := by
  have hset := leaves_setState h
  have hraises := raises_setState growing_steps h
  cases call with
  | «open» =>
    rw [perform, CryptoSession.open, ends_bind, ends_get, ends_ite]
    refine ⟨fun hn => absurd hn hc, fun _ => ?_⟩
    exact leaves_bind (hset _) (fun _ => (raises_handle growing_steps h fuel).1) s
  | renegotiate =>
    rw [perform, CryptoSession.renegotiate, ends_bind, ends_get, ends_ite]
    refine ⟨fun hn => absurd hn hc, fun _ => ?_⟩
    exact leaves_bind (leaves_get fun _ => leaves_gnutls _ _) (fun _ => hraises _) s
  | close =>
    rw [perform, CryptoSession.close, ends_bind, ends_get, ends_ite]
    refine ⟨fun hn => absurd hn hc, fun _ => ?_⟩
    exact leaves_bind (leaves_get fun _ => leaves_gnutls _ _) (fun _ => hraises _) s
  | write packet =>
    rw [perform, CryptoSession.write, ends_bind, ends_bind, ends_get, ends_ite]
    refine ⟨fun hn => absurd hn hc, fun _ => ?_⟩
    rw [← ends_bind]
    refine leaves_bind (leaves_bind (leaves_get fun _ => leaves_gnutls _ _) fun _ => ?_)
      (fun _ => raises_pure _) s
    refine raises_ite (raises_pure _) (raises_ite ?_ (raises_pure _))
    exact raises_bind (raises_record growing_steps _) fun _ => raises_throw _

/-- The guard that an operation meets, `readPacket` only two calls deep. -/
def Operation.Rejected (state : State) : Operation → Prop
  | .call c => c.Rejected state
  | .readPacket _ => state = .invalid ∨ state = .closed ∨ state = .aborted

/-- The session as the guard finds it. -/
def Operation.entered (s : CryptoSession) : Operation → CryptoSession
  | .call _ => s
  | .readPacket packet => { s with currentPacket := some packet }

theorem operate_rejected (env : Environment) (fuel : ℕ) {operation : Operation}
    (h : operation.Rejected s.state) :
    Ends (operate env fuel operation) s (fun _ _ => False)
      (fun e t => e = .invalidOperation "Session not ready" ∧ t = operation.entered s) := by
  cases operation with
  | call c => exact perform_rejected env _ fuel h
  | readPacket packet =>
    simp only [operate, CryptoSession.readPacket, handlePacket, ends_bind, ends_modify, ends_get,
      ends_ite, ends_throw]
    refine ⟨fun ho => ?_, fun _ => ⟨fun ho => ?_, fun _ => ⟨trivial, rfl⟩⟩⟩
    · rcases h with h | h | h <;> simp [h] at ho
    · rcases h with h | h | h <;> simp [h] at ho

/-- An operation that gets past its guard leaves a trace, unless it does not return. -/
theorem operate_leaves (env : Environment) (fuel : ℕ) {operation : Operation}
    (h : ¬ operation.Rejected s.state) :
    Ends (operate env fuel operation) s (fun _ t => steps s < steps t)
      (fun e t => steps s ≤ steps t ∧ (e ≠ .unfinished → steps s < steps t)) := by
  have hl := raises_listeners growing_steps env fuel
  cases operation with
  | call c => exact perform_leaves hl fuel h
  | readPacket packet =>
    simp only [operate, CryptoSession.readPacket, handlePacket, ends_bind, ends_modify, ends_get,
      ends_ite, ends_throw]
    refine ⟨fun _ => ?_, fun hn => ⟨fun _ => ?_, fun ho => ?_⟩⟩
    · exact (leaves_handle hl fuel).1 { s with currentPacket := some packet }
    · exact (leaves_handle hl fuel).2 { s with currentPacket := some packet }
    · exfalso
      apply h
      cases hs : s.state <;> simp_all [Operation.Rejected]

theorem entered_eq_iff (s : CryptoSession) (operation : Operation) :
    operation.entered s = s ↔
      ∀ packet, operation = .readPacket packet → s.currentPacket = some packet := by
  cases operation with
  | call c => simp [Operation.entered]
  | readPacket packet =>
    obtain ⟨state, currentPacket, sent, log⟩ := s
    simp [Operation.entered, eq_comm]

/-- An operation that throws `InvalidOperation` leaves the whole session as it was, its history of
gnutls calls and signals and what it has sent included, exactly if its own guard has thrown (and no
listener that was called in between) and it is not a `readPacket` that changes the stored packet
before it meets its guard. -/
theorem rejected_untouched_iff (env : Environment) (fuel : ℕ) (s t : CryptoSession)
    (operation : Operation) {what : String}
    (h : (operate env fuel operation).run s = (.error (.invalidOperation what), t)) :
    t = s ↔ operation.Rejected s.state ∧
      ∀ packet, operation = .readPacket packet → s.currentPacket = some packet := by
  by_cases hr : operation.Rejected s.state
  · have he := operate_rejected env fuel hr
    rw [Ends, h] at he
    rw [he.2, entered_eq_iff]
    exact ⟨fun ht => ⟨hr, ht⟩, fun ht => ht.2⟩
  · have he := operate_leaves env fuel hr
    rw [Ends, h] at he
    have hlt := he.2 (by simp)
    constructor
    · rintro rfl
      exact absurd hlt (lt_irrefl _)
    · intro ht
      exact absurd ht.1 hr

/-- Closing a session that was never opened. -/
theorem rejected_untouched_close :
    let env := Environment.scripted (fun _ => 0) (fun _ => 1) (fun _ => 1) fun _ => []
    let r := (operate env 1 (.call .close)).run .new
    r.1 = .error (.invalidOperation "Session not ready") ∧ r.2 = .new := by
  intro env r
  refine ⟨rfl, (rejected_untouched_iff env 1 .new r.2 (.call .close) rfl).mpr ⟨?_, ?_⟩⟩
  · exact Or.inl rfl
  · intro packet h
    cases h

/-- A datagram for a session that was never opened is turned away, yet it stays behind for the
first handshake to pull. -/
theorem rejected_packet_kept :
    let env := Environment.scripted (fun _ => 0) (fun _ => 1) (fun _ => 1) fun _ => []
    let s := run env 1 .new []
    let r := (operate env 1 (.readPacket (Packet.ofBytes [7]))).run s
    r.1 = .error (.invalidOperation "Session not ready") ∧ r.2 ≠ s ∧
      (s.pull 4).2 = (-1, []) ∧ (r.2.pull 4).2 = (1, [7]) := by
  refine ⟨rfl, ?_, rfl, rfl⟩
  intro h
  exact absurd (congrArg CryptoSession.currentPacket h) (by decide)

end Wetnork.Crypto
