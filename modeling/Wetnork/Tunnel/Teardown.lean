import Wetnork.Crypto.Refinement

/-! `~Tunnel` closes its session, whatever state that is in. -/
namespace Wetnork.Crypto

open Outcome

variable {env : Environment} {signal : CryptoM Unit} {s : CryptoSession} {fuel : ℕ}

/-- How the call of `gnutls_bye` ends: it returns, or an exception that `next.write` throws into
one of its transport callbacks comes out of it, after the callbacks before that one. -/
inductive ByeEnd where
  | returned
  | threw (before : List TransportCall) (e : Exception)

def byeThrough (env : Environment) : ByeEnd → CryptoM ℤ
  | .returned => gnutlsBye env
  | .threw before e => do
    modify fun s => before.foldl CryptoSession.transport s
    throw e

/-- `Tunnel::~Tunnel`, which is `link.close()`; what the destructors of the members do cannot
throw. -/
def destroyTunnel (env : Environment) (bye : ByeEnd) (fuel : ℕ) : CryptoM Unit := do
  let state := (← get).state
  if state = .invalid ∨ state = .closed ∨ state = .aborted then
    throw (.invalidOperation "Session not ready")
  let _ ← byeThrough env bye
  setState (listeners env fuel) .closed

/-- It is the `close` of the session wherever `gnutls_bye` returns. -/
theorem destroyTunnel_returned (env : Environment) (fuel : ℕ) :
    destroyTunnel env .returned fuel = CryptoSession.close env (listeners env fuel) := rfl

/-- All the listeners do is call the session and swallow the exceptions. -/
def Swallowed (reactions : List Reaction) : Prop := ∀ r ∈ reactions, ∃ call, r = .call call true

theorem rejected_of_closed (hs : s.state = .closed) (call : Call) : call.Rejected s.state := by
  cases call <;> simp [Call.Rejected, hs]

/-- A closed session rejects every call. -/
theorem perform_closed (env : Environment) (signal : CryptoM Unit) (fuel : ℕ)
    (hs : s.state = .closed) (call : Call) :
    Ends (perform env signal fuel call) s (fun _ _ => False)
      (fun e t => e ≠ .unfinished ∧ t = s) := by
  refine ends_mono (perform_rejected env signal fuel (rejected_of_closed hs call))
    (fun _ _ hf => hf) ?_
  rintro _ t ⟨rfl, ht⟩
  exact ⟨by simp, ht⟩

theorem react_closed (hs : s.state = .closed) (reactions : List Reaction) :
    Ends (react (perform env signal fuel) reactions) s (fun _ _ => Swallowed reactions)
      (fun _ _ => ¬ Swallowed reactions) := by
  induction reactions with
  | nil => simp [react, Swallowed]
  | cons r rs ih =>
    cases r with
    | throws => simp [react, Swallowed]
    | call call caught =>
      have hp := perform_closed env signal fuel hs call
      simp only [react, ends_bind, ends_ite, ends_tryCatch, ends_throw, ends_pure]
      constructor
      · intro hc
        have hrest : Swallowed (.call call caught :: rs) ↔ Swallowed rs := by
          simp [Swallowed, hc]
        rw [hrest]
        refine ends_mono hp (fun _ t => False.elim) ?_
        rintro e t ⟨he, rfl⟩
        exact ⟨fun h => absurd h he, fun _ => ih⟩
      · intro hc
        have hnot : ¬ Swallowed (.call call caught :: rs) := by
          simp [Swallowed, hc]
        exact ends_mono hp (fun _ t => False.elim) (fun _ _ _ => hnot)

/-- The states in which `close` is allowed. -/
def Closable (state : State) : Prop :=
  state = .opening ∨ state = State.open ∨ state = .renegotiating

theorem closable_iff (state : State) :
    Closable state ↔ ¬ (state = .invalid ∨ state = .closed ∨ state = .aborted) := by
  cases state <;> simp [Closable]

/-- The history that the listeners of the last signal see. -/
def lastLog (env : Environment) (s : CryptoSession) : Log :=
  s.log ++ [Event.bye (env.bye s.log).ret, .assigned .closed, .stateChanged s.state]

/-- The state is one that `close` accepts, `gnutls_bye` returns, and the listeners of the last
signal keep their exceptions to themselves. -/
def Uneventful (env : Environment) (bye : ByeEnd) (s : CryptoSession) : Prop :=
  Closable s.state ∧ bye = .returned ∧ Swallowed (env.listener (lastLog env s))

theorem destroyTunnel_ends (env : Environment) (bye : ByeEnd) (fuel : ℕ) (s : CryptoSession) :
    Ends (destroyTunnel env bye (fuel + 1)) s (fun _ _ => Uneventful env bye s)
      (fun _ _ => ¬ Uneventful env bye s) := by
  simp only [destroyTunnel, ends_bind, ends_get, ends_ite, ends_throw]
  refine ⟨fun hn => ?_, fun hn => ?_⟩
  · exact fun h => (closable_iff s.state).mp h.1 hn
  · have hc : Closable s.state := (closable_iff s.state).mpr hn
    cases bye with
    | threw before e =>
      simp only [byeThrough, ends_bind, ends_modify, ends_throw]
      rintro ⟨-, hr, -⟩
      cases hr
    | returned =>
      simp only [byeThrough, gnutlsBye, ends_bind, ends_get]
      refine gnutls_ends fun t ht hlog => ?_
      simp only [setState, record, listeners, ends_bind, ends_get, ends_modify, Uneventful, hc,
        true_and]
      have hl : t.log ++ [Event.assigned .closed] ++ [Event.stateChanged t.state] =
          lastLog env s := by
        simp [lastLog, hlog, ht]
      rw [hl]
      exact react_closed rfl _

/-- Whatever the session has been through before the run, exceptions out of gnutls included:
destroying the tunnel throws nothing exactly if its session has been opened and has neither been
closed nor aborted, no exception of `next.write` comes out of `gnutls_bye`, and no listener lets one
out of the last signal. -/
theorem teardown_safe_iff (env : Environment) (bye : ByeEnd) (fuel : ℕ) (s : CryptoSession)
    (operations : List Operation) :
    (∃ a, ((destroyTunnel env bye (fuel + 1)).run (run env fuel s operations)).1 = .ok a) ↔
      Closable (run env fuel s operations).state ∧ bye = .returned ∧
        Swallowed (env.listener (lastLog env (run env fuel s operations))) :=
  returns_iff (destroyTunnel_ends env bye fuel _)

/-- A tunnel that is destroyed before it is opened. -/
theorem teardown_unopened :
    let env := Environment.scripted (fun _ => 0) (fun _ => 0) (fun _ => 0) fun _ => []
    ((destroyTunnel env .returned 1).run (run env 0 .new [])).1 =
        .error (.invalidOperation "Session not ready") ∧
      ¬ ∃ a, ((destroyTunnel env .returned 1).run (run env 0 .new [])).1 = .ok a := by
  refine ⟨rfl, ?_⟩
  rintro ⟨a, ha⟩
  cases ha

end Wetnork.Crypto
