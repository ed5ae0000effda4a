import Wetnork.Library.Approximation
import Wetnork.Crypto.Measures
import Wetnork.Crypto.Refinement

/-! When the operations of a session come back: what keeps them going is results that make them
call gnutls again, and listeners. -/
namespace Wetnork.Crypto

open Outcome History Approximation

variable {env : Environment} {signal signal' : CryptoM Unit} {s t : CryptoSession} {n m fuel : ℕ}

/-- An entry, with `l` the history before it, after which further calls are made. -/
def resumes (env : Environment) (l : Log) (e : Event) : List Event :=
  match e with
  | .handshake ret => if ret = GNUTLS_E_GOT_APPLICATION_DATA then [e] else []
  | .recordRecv ret => if ret = GNUTLS_E_REHANDSHAKE then [e] else []
  | .stateChanged _ => if env.listener (l ++ [e]) = [] then [] else [e]
  | .propagate _ => if env.listener (l ++ [e]) = [] then [] else [e]
  | _ => []

def resumptions (env : Environment) (s : CryptoSession) : ℕ := (shown (resumes env) s.log).length

def Event.received : Event → Bool
  | .recordRecv ret => 0 < ret
  | _ => false

/-- How often data has been received. The buffer that is passed on with it is deleted twice when
`handleData` is left. -/
def receipts (s : CryptoSession) : ℕ := s.log.countP Event.received

/-- Every operation of a run has come back, and none has received data, so that the memory is still
in order. -/
def Returned (env : Environment) (fuel : ℕ) : CryptoSession → List Operation → Prop
  | _, [] => True
  | s, operation :: operations =>
    ((operate env fuel operation).run s).1 ≠ .error .unfinished ∧
      receipts ((operate env fuel operation).run s).2 = receipts s ∧
      Returned env fuel ((operate env fuel operation).run s).2 operations

theorem resumptions_of_log (h : t.log = s.log) : resumptions env t = resumptions env s := by
  rw [resumptions, resumptions, h]

theorem resumptions_concat {e : Event} (h : t.log = s.log ++ [e]) :
    resumptions env t = resumptions env s + (resumes env s.log e).length := by
  rw [resumptions, h, shown_concat, List.length_append]
  rfl

theorem growing_resumptions (env : Environment) : Growing (resumptions env) where
  logged s event := by
    have h := @resumptions_concat env s { s with log := s.log ++ [event] } event rfl
    omega
  assigned s state := by
    have h := @resumptions_concat env s
      { s with state := state, log := s.log ++ [Event.assigned state] } (.assigned state) rfl
    omega
  transported s call := (resumptions_of_log (transport_keeps s [call]).2).ge

theorem receipts_of_log (h : t.log = s.log) : receipts t = receipts s := by
  rw [receipts, receipts, h]

theorem growing_receipts : Growing receipts where
  logged s event := by
    rw [receipts, receipts, List.countP_append]
    exact Nat.le_add_right _ _
  assigned s state := by
    rw [receipts, receipts, List.countP_append]
    exact Nat.le_add_right _ _
  transported s call := (receipts_of_log (transport_keeps s [call]).2).ge

section Below

theorem below_setState (h : Below .unfinished signal signal') (state : State) :
    Below .unfinished (setState signal state) (setState signal' state) :=
  below_bind (below_refl _) fun _ => below_bind (below_refl _) fun _ =>
    below_bind (below_refl _) fun _ => h

theorem below_handle (env : Environment) (h : Below .unfinished signal signal') (hnm : n ≤ m) :
    Below .unfinished (handleHandshake env signal n) (handleHandshake env signal' m) ∧
    Below .unfinished (handleData env signal n) (handleData env signal' m) := by
  induction n generalizing m with
  | zero =>
    rw [handleHandshake, handleData]
    exact ⟨below_cut _, below_cut _⟩
  | succ n ih =>
    obtain ⟨m, rfl⟩ := Nat.exists_eq_add_of_le' hnm
    obtain ⟨hhandshake, hdata⟩ := @ih (m + n) (Nat.le_add_left n m)
    have hset := below_setState h
    rw [← Nat.add_assoc, handleHandshake_succ, handleHandshake_succ, handleData_succ,
      handleData_succ]
    refine ⟨below_bind (below_refl _) fun ret => ?_, below_bind (below_refl _) fun received => ?_⟩
    · exact below_ite hdata (below_ite (below_refl _) (below_ite (hset _) (below_refl _)))
    · refine below_ite (below_ite (below_bind (hset _) fun _ => hhandshake) (below_refl _))
        (below_ite (below_bind (below_refl _) fun _ => ?_) (below_bind (below_refl _) fun _ => h))
      exact below_ite (below_bind (below_refl _) fun _ => hset _) (hset _)

theorem below_perform (env : Environment) (h : Below .unfinished signal signal') (hnm : n ≤ m)
    (call : Call) :
    Below .unfinished (perform env signal n call) (perform env signal' m call) := by
  have hset := below_setState h
  cases call with
  | «open» =>
    exact below_bind (below_refl _) fun _ => below_guard fun _ =>
      below_bind (hset _) fun _ => (below_handle env h hnm).1
  | renegotiate =>
    exact below_bind (below_refl _) fun _ => below_guard fun _ =>
      below_bind (below_refl _) fun _ => hset _
  | close =>
    exact below_bind (below_refl _) fun _ => below_guard fun _ =>
      below_bind (below_refl _) fun _ => hset _
  | write packet => exact below_refl _

theorem below_react {perform perform' : Call → CryptoM Unit}
    (h : ∀ call, Below .unfinished (perform call) (perform' call)) (reactions : List Reaction) :
    Below .unfinished (react perform reactions) (react perform' reactions) := by
  induction reactions with
  | nil => exact below_refl _
  | cons r rs ih =>
    cases r with
    | throws => exact below_refl _
    | call call caught =>
      refine below_ite (below_bind (below_tryCatch (h call) ?_) fun _ => ih)
        (below_bind (h call) fun _ => ih)
      exact if_pos rfl

theorem below_listeners (env : Environment) (hnm : n ≤ m) :
    Below .unfinished (listeners env n) (listeners env m) := by
  induction n generalizing m with
  | zero => exact below_cut _
  | succ n ih =>
    obtain ⟨m, rfl⟩ := Nat.exists_eq_add_of_le' hnm
    rw [← Nat.add_assoc]
    refine below_bind (below_refl _) fun _ => below_react (below_perform env ?_ ?_) _
    · exact ih (Nat.le_add_left n m)
    · exact Nat.le_add_left n m

/-- Calls that may nest deeper end in the same way, if they ended before. -/
theorem below_operate (env : Environment) (hnm : n ≤ m) (operation : Operation) :
    Below .unfinished (operate env n operation) (operate env m operation) := by
  have hl := below_listeners env hnm
  cases operation with
  | call call => exact below_perform env hl hnm call
  | readPacket packet =>
    refine below_bind (below_refl _) fun _ => below_bind (below_refl _) fun _ => ?_
    exact below_ite (below_handle env hl hnm).1
      (below_ite (below_handle env hl hnm).2 (below_refl _))

end Below

section Costs

/-- A signal that is cut off at depth `n` has been reacted to that often, itself included. -/
def Reacts (env : Environment) (n : ℕ) (signal : CryptoM Unit) : Prop :=
  ∀ s, Ends signal s (fun _ _ => True) (fun e t => e = .unfinished →
    resumptions env s + n ≤ resumptions env t + (if env.listener s.log = [] then 0 else 1))

theorem costs_gnutls (reply : Reply) (event : ℤ → Event) :
    Costs .unfinished (resumptions env) n (gnutls reply event) :=
  costs_of_ends fun _ => gnutls_ends fun _ _ _ => trivial

/-- The signal is part of what has been counted when its listeners run. -/
theorem costs_signal (h : Reacts env n signal) {e : Event}
    (he : ∀ l, resumes env l e = if env.listener (l ++ [e]) = [] then [] else [e]) :
    Costs .unfinished (resumptions env) n (do record e; signal) := by
  apply costs_of_ends
  intro s
  simp only [record, ends_bind, ends_modify]
  refine ends_mono (h _) (fun _ _ _ => trivial) (fun x t ht hx => ?_)
  have hcost := ht hx
  rw [@resumptions_concat env s { s with log := s.log ++ [e] } e rfl, he] at hcost
  by_cases hl : env.listener (s.log ++ [e]) = []
  · simpa [hl] using hcost
  · simp only [hl, if_false, List.length_singleton] at hcost
    omega

theorem costs_setState (h : Reacts env n signal) (state : State) :
    Costs .unfinished (resumptions env) n (setState signal state) :=
  costs_bind raises_get costs_get fun _ =>
    costs_bind (raises_modify fun s => (growing_resumptions env).assigned s state)
      (costs_modify _) fun _ => costs_signal h fun _ => rfl

theorem costs_fail (code : ℤ) : Costs .unfinished (resumptions env) n (fail env code) := by
  apply costs_of_ends
  intro s
  simp only [fail, record, ends_bind, ends_modify, ends_get, ends_throw]
  intro h
  cases h

theorem costs_close (h : Reacts env n signal) :
    Costs .unfinished (resumptions env) n (do
      let _ ← gnutlsBye env
      setState signal .closed) :=
  costs_bind (raises_bind raises_get fun _ => raises_gnutls (growing_resumptions env) _ _)
    (costs_bind raises_get costs_get fun _ => costs_gnutls _ _) fun _ => costs_setState h _

theorem costs_handle (hr : Raises (resumptions env) signal) (h : Reacts env n signal)
    (hf : fuel ≤ n) :
    Costs .unfinished (resumptions env) fuel (handleHandshake env signal fuel) ∧
    Costs .unfinished (resumptions env) fuel (handleData env signal fuel) := by
  induction fuel with
  | zero =>
    rw [handleHandshake, handleData]
    exact ⟨fun _ _ => le_rfl, fun _ _ => le_rfl⟩
  | succ fuel ih =>
    obtain ⟨hhandshake, hdata⟩ := ih (Nat.le_of_succ_le hf)
    have hset : ∀ state, Costs .unfinished (resumptions env) n (setState signal state) :=
      costs_setState h
    constructor
    · apply costs_of_ends
      intro s
      simp only [handleHandshake, gnutlsHandshake, ends_bind, ends_get]
      apply gnutls_ends
      intro t _ hlog
      have hgrown := @resumptions_concat env s t _ hlog
      simp only [ends_ite, ends_pure]
      refine ⟨fun hd => ?_, fun _ => ⟨fun _ => trivial, fun _ => ⟨fun _ => ?_, fun _ => ?_⟩⟩⟩
      · simp only [resumes, hd, if_true, List.length_singleton] at hgrown
        exact ends_of_costs hdata t (by omega)
      · exact ends_of_costs (hset _) t (by omega)
      · exact ends_of_costs (costs_fail (n := n) _) t (by omega)
    · apply costs_of_ends
      intro s
      simp only [handleData, gnutlsRecordRecv, ends_bind, ends_get, ends_pure]
      apply gnutls_ends
      intro t _ hlog
      have hgrown := @resumptions_concat env s t _ hlog
      rw [ends_ite, ends_ite, ends_ite]
      refine ⟨fun _ => ⟨fun hre => ?_, fun _ => ?_⟩, fun _ => ⟨fun _ => ?_, fun _ => ?_⟩⟩
      · simp only [resumes, hre, if_true, List.length_singleton] at hgrown
        have hresume := costs_bind (raises_setState (growing_resumptions env) hr .renegotiating)
          (costs_le (hset _) (Nat.le_of_succ_le hf)) fun _ => hhandshake
        exact ends_of_costs hresume t (by omega)
      · exact ends_of_costs (costs_fail (n := n) _) t (by omega)
      · rw [ends_bind, ends_get, ends_ite]
        exact ⟨fun _ => ends_of_costs (costs_close h) t (by omega),
          fun _ => ends_of_costs (hset _) t (by omega)⟩
      · exact ends_of_costs (costs_signal h fun _ => rfl) t (by omega)

theorem costs_perform (hr : Raises (resumptions env) signal) (h : Reacts env n signal)
    (call : Call) : Costs .unfinished (resumptions env) n (perform env signal n call) := by
  have hf := growing_resumptions env
  cases call with
  | «open» =>
    exact costs_bind raises_get costs_get fun _ => costs_guard (by simp) fun _ =>
      costs_bind (raises_setState hf hr _) (costs_setState h _) fun _ =>
        (costs_handle hr h le_rfl).1
  | renegotiate =>
    exact costs_bind raises_get costs_get fun _ => costs_guard (by simp) fun _ =>
      costs_bind (raises_bind raises_get fun _ => raises_gnutls hf _ _)
        (costs_bind raises_get costs_get fun _ => costs_gnutls _ _) fun _ => costs_setState h _
  | close =>
    exact costs_bind raises_get costs_get fun _ => costs_guard (by simp) fun _ => costs_close h
  | write packet =>
    -- `write` raises no signal, and is never cut off.
    apply costs_of_ends
    intro s
    simp only [perform, CryptoSession.write, gnutlsRecordSend, ends_bind, ends_get, ends_ite,
      ends_throw, ends_pure]
    refine ⟨fun _ => by simp, fun _ => gnutls_ends fun t _ _ => ?_⟩
    simp [record]

theorem costs_react {perform : Call → CryptoM Unit}
    (hr : ∀ call, Raises (resumptions env) (perform call))
    (h : ∀ call, Costs .unfinished (resumptions env) n (perform call))
    (reactions : List Reaction) :
    Costs .unfinished (resumptions env) n (react perform reactions) := by
  induction reactions with
  | nil => exact costs_pure _
  | cons r rs ih =>
    cases r with
    | throws => exact costs_throw (by simp)
    | call call caught =>
      refine costs_ite (costs_bind (raises_tryCatch (hr call) fun e => ?_)
        (costs_tryCatch (hr call) (h call) (if_pos rfl) fun e he => ?_) fun _ => ih)
        (costs_bind (hr call) (h call) fun _ => ih)
      · exact raises_ite (raises_throw _) (raises_pure _)
      · exact costs_ite (costs_throw he) (costs_pure _)

theorem reacts_listeners (env : Environment) (n : ℕ) : Reacts env n (listeners env n) := by
  induction n with
  | zero =>
    intro s
    rw [listeners, ends_throw]
    exact fun _ => Nat.le_add_right _ _
  | succ n ih =>
    intro s
    have hr := raises_listeners (growing_resumptions env) env n
    have hreact := costs_react (raises_perform (growing_resumptions env) hr n)
      (costs_perform hr ih) (env.listener s.log)
    simp only [listeners, ends_bind, ends_get]
    by_cases hl : env.listener s.log = []
    · rw [hl, react, ends_pure]
      trivial
    · rw [if_neg hl]
      refine ends_mono (ends_of_costs hreact s le_rfl) (fun _ _ h => h) (fun e t h he => ?_)
      have hcost := h he
      omega

/-- An operation that is cut off at depth `n` has been kept going that often. -/
theorem costs_operate (env : Environment) (n : ℕ) (operation : Operation) :
    Costs .unfinished (resumptions env) n (operate env n operation) := by
  have hr := raises_listeners (growing_resumptions env) env n
  have h := reacts_listeners env n
  cases operation with
  | call call => exact costs_perform hr h call
  | readPacket packet =>
    obtain ⟨hhandshake, hdata⟩ := @costs_handle env _ n n hr h le_rfl
    refine costs_bind (raises_modify fun s => (resumptions_of_log rfl).ge) (costs_modify _)
      fun _ => costs_bind raises_get costs_get fun _ => ?_
    exact costs_ite hhandshake (costs_ite hdata (costs_throw (by simp)))

end Costs

/-- What is measured by the history stays, whatever an operation does. -/
theorem operate_raises {f : CryptoSession → ℕ} (hf : Growing f)
    (hlog : ∀ s t : CryptoSession, t.log = s.log → f t = f s) (env : Environment) (n : ℕ)
    (operation : Operation) (s : CryptoSession) : f s ≤ f ((operate env n operation).run s).2 := by
  have hr := raises_listeners hf env n
  cases operation with
  | call call => exact raises_perform hf hr n call s
  | readPacket packet =>
    have hslot : f { s with currentPacket := some packet } = f s := hlog _ _ rfl
    exact hslot.ge.trans (raises_handlePacket hf hr n _)

theorem run_raises {f : CryptoSession → ℕ} (hf : Growing f)
    (hlog : ∀ s t : CryptoSession, t.log = s.log → f t = f s) (env : Environment) (n : ℕ)
    (operations : List Operation) (s : CryptoSession) : f s ≤ f (run env n s operations) := by
  induction operations generalizing s with
  | nil => exact le_rfl
  | cons operation operations ih =>
    have hop := operate_raises hf hlog env n operation s
    rw [run]
    split
    · next t ht => rwa [ht] at hop
    · next t _ ht =>
      rw [ht] at hop
      exact hop.trans (ih t)

theorem resumptions_operate (env : Environment) (n : ℕ) (operation : Operation)
    (s : CryptoSession) :
    resumptions env s ≤ resumptions env ((operate env n operation).run s).2 :=
  operate_raises (growing_resumptions env) (fun _ _ => resumptions_of_log) env n operation s

/-- A run goes on behind an operation that has come back. -/
theorem run_cons_of_ne {operation : Operation} (operations : List Operation)
    (h : ((operate env n operation).run s).1 ≠ .error .unfinished) :
    run env n s (operation :: operations) =
      run env n ((operate env n operation).run s).2 operations := by
  rw [run]
  split
  · next t ht => exact absurd (by rw [ht]) h
  · next t _ ht => rw [ht]

theorem returned_of_few (operations : List Operation)
    (h : resumptions env (run env n s operations) < resumptions env s + n)
    (hr : receipts (run env n s operations) = receipts s) : Returned env n s operations := by
  induction operations generalizing s with
  | nil => trivial
  | cons operation operations ih =>
    have hraise := resumptions_operate env n operation s
    by_cases hne : ((operate env n operation).run s).1 = .error .unfinished
    · have hcost := costs_operate env n operation s hne
      rw [run] at h
      split at h
      · next t ht =>
        rw [ht] at hcost
        dsimp only at hcost
        omega
      · next hno ht => exact (hno (by rw [← hne, ht])).elim
    · rw [run_cons_of_ne operations hne] at h hr
      have hop := operate_raises growing_receipts (fun _ _ => receipts_of_log) env n operation s
      have hrun := run_raises growing_receipts (fun _ _ => receipts_of_log) env n operations
        ((operate env n operation).run s).2
      exact ⟨hne, by omega, ih (by omega) (by omega)⟩

/-- Operations that have come back come back in the same way if calls may nest deeper. -/
theorem run_of_returned (hnm : n ≤ m) (operations : List Operation)
    (h : Returned env n s operations) :
    run env m s operations = run env n s operations ∧ Returned env m s operations ∧
      receipts (run env n s operations) = receipts s := by
  induction operations generalizing s with
  | nil => exact ⟨rfl, trivial, rfl⟩
  | cons operation operations ih =>
    obtain ⟨hne, hr, hrest⟩ := h
    have heq := (below_operate env hnm operation s).resolve_left hne
    have hne' : ((operate env m operation).run s).1 ≠ .error .unfinished := by rwa [heq]
    obtain ⟨hrun, hret, hreceipts⟩ := ih hrest
    rw [run_cons_of_ne operations hne, run_cons_of_ne operations hne', heq]
    refine ⟨hrun, ⟨hne', ?_⟩, hreceipts.trans hr⟩
    rw [heq]
    exact ⟨hr, hret⟩

/-- The operations of a run come back exactly if there is a bound on how often they are kept going,
by results that make the session call gnutls again and by signals that a listener reacts to, and if
no data is received before they have run their course. Once they do, it does not matter how deep
calls may nest. -/
theorem run_returns_iff (env : Environment) (operations : List Operation) :
    ((∃ n, Returned env n .new operations) ↔
      ∃ bound, (∀ n, resumptions env (run env n .new operations) ≤ bound) ∧
        ∀ n, bound < n → receipts (run env n .new operations) = 0) ∧
    ∀ n m, n ≤ m → Returned env n .new operations →
      run env m .new operations = run env n .new operations ∧
        Returned env m .new operations := by
  have hzero : resumptions env .new = 0 := rfl
  have hdeeper := fun n m hnm => @run_of_returned env .new n m hnm operations
  refine ⟨⟨?_, ?_⟩, fun n m hnm h => ⟨(hdeeper n m hnm h).1, (hdeeper n m hnm h).2.1⟩⟩
  · rintro ⟨n, hret⟩
    let count k := resumptions env (run env k .new operations)
    have hle : ∀ k ≤ n, count k ≤ (Finset.range (n + 1)).sup count := fun k hk =>
      Finset.le_sup (Finset.mem_range.mpr (Nat.lt_succ_of_le hk))
    refine ⟨n + (Finset.range (n + 1)).sup count, fun k => ?_, fun k hk => ?_⟩
    · rcases Nat.le_total k n with hk | hk
      · exact (hle k hk).trans (Nat.le_add_left _ _)
      · rw [(hdeeper n k hk hret).1]
        exact (hle n le_rfl).trans (Nat.le_add_left _ _)
    · obtain ⟨heq, -, hr⟩ := hdeeper n k (by omega) hret
      rw [heq]
      exact hr
  · rintro ⟨bound, hbound, hreceipts⟩
    refine ⟨bound + 1, returned_of_few operations ?_ (hreceipts (bound + 1) (by omega))⟩
    have := hbound (bound + 1)
    omega

end Wetnork.Crypto
