import Wetnork.Library.Outcome
import Wetnork.Crypto.Moves

/-! The methods of `CryptoSession`, with any listeners, make only moves of the automaton. -/
namespace Wetnork.Crypto

open Outcome

variable {env : Environment} {signal : CryptoM Unit} {late : Prop} {s t : CryptoSession}
  {l : Log} {fuel : ℕ}

/-- `_state` is what the history says. -/
def Tracks (s : CryptoSession) : Prop := s.state = stateAfter s.log

/-- The history has been extended from `l` by calls from inside a signal. -/
def Called (l : Log) (s : CryptoSession) : Prop := Tracks s ∧ CallPath l s.log

def Reached (late : Prop) (s : CryptoSession) : Prop := Tracks s ∧ Path late s.log

/-- No listener calls back into the session. -/
def Environment.Quiet (env : Environment) : Prop :=
  ∀ l call caught, Reaction.call call caught ∉ env.listener l

/-- What a signal may have done by the time its listeners are through. -/
def Heard (late : Prop) (l : Log) (s : CryptoSession) : Prop :=
  Called l s ∧ (late ∨ s.log = l)

def Listens (late : Prop) (signal : CryptoM Unit) : Prop :=
  ∀ s, Tracks s → stateAfter s.log ≠ .invalid →
    Ends signal s (fun _ => Heard late s.log) (fun _ => Heard late s.log)

theorem transport_keeps (s : CryptoSession) (calls : List TransportCall) :
    (calls.foldl CryptoSession.transport s).state = s.state ∧
      (calls.foldl CryptoSession.transport s).log = s.log := by
  induction calls generalizing s with
  | nil => exact ⟨rfl, rfl⟩
  | cons c calls ih =>
    rw [List.foldl_cons, (ih _).1, (ih _).2]
    cases c with
    | pull size =>
      cases hp : s.currentPacket <;> simp [CryptoSession.transport, CryptoSession.pull, hp]
    | pullTimeout ms => exact ⟨rfl, rfl⟩
    | push data accepted =>
      simp only [CryptoSession.transport, CryptoSession.push]
      split <;> exact ⟨rfl, rfl⟩
    | vecPush iov accepted =>
      simp only [CryptoSession.transport, CryptoSession.vecPush]
      split <;> exact ⟨rfl, rfl⟩

/-- A gnutls call adds its result to the history and touches nothing else that is observed. -/
theorem gnutls_ends {reply : Reply} {event : ℤ → Event} {Q : ℤ → CryptoSession → Prop}
    {E : Exception → CryptoSession → Prop}
    (h : ∀ t, t.state = s.state → t.log = s.log ++ [event reply.ret] → Q reply.ret t) :
    Ends (gnutls reply event) s Q E := by
  obtain ⟨hs, hl⟩ := transport_keeps s reply.transport
  simp only [gnutls, record, ends_bind, ends_modify, ends_pure]
  exact h _ hs (by rw [hl])

theorem fail_ends {code : ℤ} (hl : Path late l)
    (hm : Move late l (s.log ++ [Event.assigned .aborted, .cryptoException code])) :
    Ends (fail env code) s (fun _ => Reached late) (fun _ => Reached late) := by
  simp only [fail, record, ends_bind, ends_modify, ends_get, ends_throw]
  refine ⟨?_, ?_⟩
  · simp [Tracks, Event.assign]
  · simpa using hl.tail hm

theorem setState_ends (hl : Listens late signal) {state : State} (hs : state ≠ .invalid) :
    let l := s.log ++ [Event.assigned state, .stateChanged s.state]
    Ends (setState signal state) s (fun _ => Heard late l) (fun _ => Heard late l) := by
  intro l
  simp only [setState, record, ends_bind, ends_modify, ends_get]
  have h := hl { s with state := state, log := l } (by simp [Tracks, l, Event.assign])
    (by simpa [l, Event.assign] using hs)
  simpa [l] using h

theorem called_refl (hs : Tracks s) : Called s.log s := ⟨hs, .refl⟩

theorem called_of_heard {l' : Log} (hm : CallMove l l') (h : Heard late l' s) : Called l s :=
  ⟨h.1.1, .head hm h.1.2⟩

theorem setState_called (hl : Listens late signal) {state : State} (hs : state ≠ .invalid)
    (hm : CallMove l (s.log ++ [Event.assigned state, .stateChanged s.state])) :
    Ends (setState signal state) s (fun _ => Called l) (fun _ => Called l) :=
  ends_mono (setState_ends hl hs) (fun _ _ h => called_of_heard hm h)
    (fun _ _ h => called_of_heard hm h)

/-- A call on a session that has left `Invalid` makes call moves only: `open` is rejected. -/
theorem perform_ends (env : Environment) (fuel : ℕ) (hl : Listens late signal) (hs : Tracks s)
    (hn : stateAfter s.log ≠ .invalid) (call : Call) :
    Ends (perform env signal fuel call) s (fun _ => Called s.log) (fun _ => Called s.log) := by
  have hstate : s.state = stateAfter s.log := hs
  cases call with
  | «open» =>
    simp only [perform, CryptoSession.open, ends_bind, ends_get, ends_ite, ends_throw]
    exact ⟨fun _ => called_refl hs, fun h => (h (by rwa [hstate])).elim⟩
  | renegotiate =>
    simp only [perform, CryptoSession.renegotiate, gnutlsRehandshake, ends_bind, ends_get,
      ends_ite, ends_throw]
    refine ⟨fun _ => called_refl hs, fun ho => ?_⟩
    apply gnutls_ends
    intro t ht hlog
    have hm := CallMove.renegotiate (env.rehandshake s.log).ret (hstate.symm.trans (not_not.mp ho))
    rw [← hstate, ← ht] at hm
    exact setState_called hl (by simp) (by simpa [hlog] using hm)
  | close =>
    simp only [perform, CryptoSession.close, gnutlsBye, ends_bind, ends_get, ends_ite, ends_throw]
    refine ⟨fun _ => called_refl hs, fun ho => ?_⟩
    apply gnutls_ends
    intro t ht hlog
    have hm := CallMove.close (env.bye s.log).ret (l := s.log) (by rw [← hstate]; tauto)
    rw [← hstate, ← ht] at hm
    exact setState_called hl (by simp) (by simpa [hlog] using hm)
  | write packet =>
    simp only [perform, CryptoSession.write, gnutlsRecordSend, record, ends_bind, ends_get,
      ends_ite, ends_throw, ends_pure, ends_modify]
    refine ⟨fun _ => called_refl hs, fun ho => ?_⟩
    have hopen := hstate.symm.trans (not_not.mp ho)
    apply gnutls_ends
    intro t ht hlog
    have htr : Tracks t := by simp [Tracks, ht, hlog, hstate, Event.assign]
    refine ⟨fun ha => ?_, fun ha => ⟨fun hneg => ?_, fun hneg => ?_⟩⟩
    · exact ⟨htr, hlog ▸ .single (.send _ hopen (Or.inl ha))⟩
    · refine ⟨by simp [Tracks, ht, hlog, hstate, Event.assign], ?_⟩
      simpa [hlog] using Relation.ReflTransGen.single (CallMove.sendFails _ hopen ha hneg)
    · exact ⟨htr, hlog ▸ .single (.send _ hopen (Or.inr (by omega)))⟩

/-- The guard at the top of each method turns the call away. -/
def Call.Rejected (state : State) : Call → Prop
  | Call.open => state ≠ .invalid
  | .renegotiate => state ≠ State.open
  | .close => state = .invalid ∨ state = .closed ∨ state = .aborted
  | .write _ => state ≠ State.open

/-- A call that is turned away has no effect at all. -/
theorem perform_rejected (env : Environment) (signal : CryptoM Unit) (fuel : ℕ) {call : Call}
    (h : call.Rejected s.state) :
    Ends (perform env signal fuel call) s (fun _ _ => False)
      (fun e t => e = .invalidOperation "Session not ready" ∧ t = s) := by
  cases call with
  | «open» =>
    simp only [perform, CryptoSession.open, ends_bind, ends_get, ends_ite, ends_throw]
    exact ⟨fun _ => ⟨trivial, trivial⟩, fun hn => absurd h hn⟩
  | renegotiate =>
    simp only [perform, CryptoSession.renegotiate, ends_bind, ends_get, ends_ite, ends_throw]
    exact ⟨fun _ => ⟨trivial, trivial⟩, fun hn => absurd h hn⟩
  | close =>
    simp only [perform, CryptoSession.close, ends_bind, ends_get, ends_ite, ends_throw]
    exact ⟨fun _ => ⟨trivial, trivial⟩, fun hn => absurd h hn⟩
  | write packet =>
    simp only [perform, CryptoSession.write, ends_bind, ends_get, ends_ite, ends_throw]
    exact ⟨fun _ => ⟨trivial, trivial⟩, fun hn => absurd h hn⟩

theorem called_trans (h : Called l s) (h' : Called s.log t) : Called l t :=
  ⟨h'.1, h.2.trans h'.2⟩

theorem calls_ne_invalid {l' : Log} (h : CallPath l l') (hn : stateAfter l ≠ .invalid) :
    stateAfter l' ≠ .invalid := by
  rcases stateAfter_calls h with he | ⟨he, _⟩ | ⟨he, _⟩ <;> simp [he, hn]

theorem react_ends (hl : Listens late signal) (reactions : List Reaction) :
    ∀ s, Called l s → stateAfter l ≠ .invalid →
      Ends (react (perform env signal fuel) reactions) s (fun _ => Called l)
        (fun _ => Called l) := by
  induction reactions with
  | nil =>
    intro s hs _
    simpa [react] using hs
  | cons r rs ih =>
    intro s hs hn
    cases r with
    | throws => simpa [react] using hs
    | call call caught =>
      have hp := perform_ends env fuel hl hs.1 (calls_ne_invalid hs.2 hn) call
      have hnext : ∀ t, Called s.log t →
          Ends (react (perform env signal fuel) rs) t (fun _ => Called l) (fun _ => Called l) :=
        fun t ht => ih t (called_trans hs ht) hn
      simp only [react, ends_bind, ends_ite, ends_tryCatch, ends_throw, ends_pure]
      constructor
      · intro _
        refine ends_mono hp (fun _ t ht => hnext t ht) (fun e t ht => ?_)
        exact ⟨fun _ => called_trans hs ht, fun _ => hnext t ht⟩
      · intro _
        exact ends_mono hp (fun _ t ht => hnext t ht) (fun e t ht => called_trans hs ht)

/-- Listeners that do not call back leave a session exactly as it is. -/
theorem react_quiet (s : CryptoSession) {reactions : List Reaction}
    (hr : ∀ call caught, .call call caught ∉ reactions) :
    Ends (react (perform env signal fuel) reactions) s (fun _ t => t = s) (fun _ t => t = s) := by
  cases reactions with
  | nil => simp [react]
  | cons r rs =>
    cases r with
    | throws => simp [react]
    | call call caught => exact absurd List.mem_cons_self (hr call caught)

/-- The listeners of every depth; if they are quiet, signals change nothing. -/
theorem listeners_listens (h : late ∨ env.Quiet) (fuel : ℕ) :
    Listens late (listeners env fuel) := by
  induction fuel with
  | zero =>
    intro s hs _
    simpa [listeners] using ⟨called_refl hs, Or.inr rfl⟩
  | succ fuel ih =>
    intro s hs hn
    simp only [listeners, ends_bind, ends_get]
    rcases h with hlate | hquiet
    · refine ends_mono (react_ends ih _ s (called_refl hs) hn) ?_ ?_ <;>
      · intro _ t ht
        exact ⟨ht, Or.inl hlate⟩
    · refine ends_mono (react_quiet s (hquiet s.log)) ?_ ?_ <;>
      · rintro _ t rfl
        exact ⟨called_refl hs, Or.inr rfl⟩

theorem reached_of_heard {l' : Log} (hl : Path late l) (hm : Move late l l')
    (h : Heard late l' s) : Reached late s :=
  ⟨h.1.1, path_calls (hl.tail hm) h.1.2⟩

theorem handshaking_of_heard (hs : Handshaking late (stateAfter l)) (h : Heard late l s) :
    Handshaking late (stateAfter s.log) :=
  handshaking_calls hs h.1.2 h.2

theorem setState_reached (hl : Listens late signal) (hp : Path late l) {state : State}
    (hs : state ≠ .invalid)
    (hm : Move late l (s.log ++ [Event.assigned state, .stateChanged s.state])) :
    Ends (setState signal state) s (fun _ => Reached late) (fun _ => Reached late) :=
  ends_mono (setState_ends hl hs) (fun _ _ h => reached_of_heard hp hm h)
    (fun _ _ h => reached_of_heard hp hm h)

/-- What `handleHandshake` does is moves of the automaton, if that is so for the data it meets. -/
theorem handleHandshake_ends (hl : Listens late signal)
    (hdata : ∀ s, Reached late s → Receiving late s.log →
      Ends (handleData env signal fuel) s (fun _ => Reached late) (fun _ => Reached late))
    (hs : Reached late s) (hh : Handshaking late (stateAfter s.log)) :
    Ends (handleHandshake env signal (fuel + 1)) s (fun _ => Reached late)
      (fun _ => Reached late) := by
  have hstate : s.state = stateAfter s.log := hs.1
  simp only [handleHandshake, gnutlsHandshake, ends_bind, ends_get]
  apply gnutls_ends
  intro t ht hlog
  have htr : Tracks t := by simp [Tracks, ht, hlog, hstate, Event.assign]
  simp only [ends_ite, ends_pure]
  refine ⟨fun hr => ?_, fun hd => ⟨fun hr => ?_, fun ha => ⟨fun hr => ?_, fun hz => ?_⟩⟩⟩
  · rw [hr] at hlog
    refine hdata t ⟨htr, hlog ▸ hs.2.tail (.handshakeData hh)⟩ (Or.inr ⟨by simp [hlog], ?_⟩)
    simpa [hlog, Event.assign] using hh
  · rw [hr] at hlog
    exact ⟨htr, hlog ▸ hs.2.tail (.handshakeAgain hh)⟩
  · rw [hr] at hlog
    have hm := Move.handshakeSuccess hh
    rw [← hstate, ← ht] at hm
    exact setState_reached hl hs.2 (by simp) (by simpa [hlog] using hm)
  · apply fail_ends hs.2
    simpa [hlog] using Move.handshakeFails _ hh ⟨hd, ha, hz⟩

/-- Likewise `handleData`, if it is so for the handshake it may have to take up. -/
theorem handleData_ends (hl : Listens late signal)
    (hhandshake : ∀ s, Reached late s → Handshaking late (stateAfter s.log) →
      Ends (handleHandshake env signal fuel) s (fun _ => Reached late) (fun _ => Reached late))
    (hs : Reached late s) (hr : Receiving late s.log) :
    Ends (handleData env signal (fuel + 1)) s (fun _ => Reached late)
      (fun _ => Reached late) := by
  have hstate : s.state = stateAfter s.log := hs.1
  simp only [handleData, gnutlsRecordRecv, ends_bind, ends_get, ends_pure]
  apply gnutls_ends
  intro t ht hlog
  simp only [ends_ite, ends_bind, ends_get]
  refine ⟨fun hneg => ⟨fun hre => ?_, fun hre => ?_⟩, fun hpos => ⟨fun hz => ⟨fun hc => ?_,
    fun hc => ?_⟩, fun hz => ?_⟩⟩
  · -- The listeners of this signal run before the handshake is taken up again.
    rw [hre] at hlog
    have hm := Move.recvRehandshake hr
    rw [← hstate, ← ht] at hm
    refine ends_mono (setState_ends hl (by simp)) (fun _ u hu => ?_) (fun _ u hu => ?_)
    · have hu' : Heard late (s.log ++ [Event.recordRecv GNUTLS_E_REHANDSHAKE,
          .assigned .renegotiating, .stateChanged t.state]) u := by simpa [hlog] using hu
      refine hhandshake u (reached_of_heard hs.2 hm hu') (handshaking_of_heard ?_ hu')
      exact Or.inr (Or.inl (by simp [Event.assign]))
    · exact reached_of_heard hs.2 hm (by simpa [hlog] using hu)
  · apply fail_ends hs.2
    simpa [hlog] using Move.recvFails _ hr ⟨hneg, hre⟩
  · rw [hz] at hlog
    simp only [gnutlsBye, ends_bind, ends_get]
    apply gnutls_ends
    intro u hu hulog
    have hm := Move.recvBye (env.bye t.log).ret hr (by rwa [← hstate, ← ht])
    rw [← hstate, ← ht, ← hu] at hm
    exact setState_reached hl hs.2 (by simp) (by simpa [hlog, hulog] using hm)
  · rw [hz] at hlog
    have hclosed : t.state = .closed := not_not.mp hc
    have hm := Move.recvClosed hr (by rw [← hstate, ← ht, hclosed])
    exact setState_reached hl hs.2 (by simp) (by simpa [hlog, hclosed] using hm)
  · have hlt : 0 < (env.recordRecv s.log).ret := by omega
    simp only [propagate, record, ends_bind, ends_modify]
    have hm := Move.recvData _ (Packet.ofBytes
      ((env.recordRecv s.log).buffer.take (env.recordRecv s.log).ret.toNat)) hr hlt
    refine ends_mono (hl _ ?_ ?_) ?_ ?_
    · simp [Tracks, ht, hlog, hstate, Event.assign]
    · simpa [hlog, Event.assign] using receiving_ne_invalid hr
    · intro _ v hv
      exact reached_of_heard hs.2 hm (by simpa [hlog] using hv)
    · intro _ v hv
      exact reached_of_heard hs.2 hm (by simpa [hlog] using hv)

/-- The mutual recursion of `handleHandshake` and `handleData`, by induction on the fuel. -/
theorem handle_ends (hl : Listens late signal) (fuel : ℕ) :
    (∀ s, Reached late s → Handshaking late (stateAfter s.log) →
      Ends (handleHandshake env signal fuel) s (fun _ => Reached late) (fun _ => Reached late)) ∧
    (∀ s, Reached late s → Receiving late s.log →
      Ends (handleData env signal fuel) s (fun _ => Reached late) (fun _ => Reached late)) := by
  induction fuel with
  | zero => exact ⟨fun s hs _ => by simpa [handleHandshake] using hs,
      fun s hs _ => by simpa [handleData] using hs⟩
  | succ fuel ih =>
    obtain ⟨hhandshake, hdata⟩ := ih
    exact ⟨fun s => handleHandshake_ends hl hdata, fun s => handleData_ends hl hhandshake⟩

theorem reached_called (h : Reached late s) (h' : Called s.log t) : Reached late t :=
  ⟨h'.1, path_calls h.2 h'.2⟩

/-- A session in `Invalid` rejects every call but `open`. -/
theorem rejected_of_invalid (hs : s.state = .invalid) {call : Call} (hc : call ≠ Call.open) :
    call.Rejected s.state := by
  cases call with
  | «open» => exact absurd rfl hc
  | _ => simp [Call.Rejected, hs]

theorem open_ends (env : Environment) (fuel : ℕ) (hl : Listens late signal)
    (hs : Reached late s) (hn : stateAfter s.log = .invalid) :
    Ends (perform env signal fuel Call.open) s (fun _ => Reached late) (fun _ => Reached late) := by
  have hstate : s.state = .invalid := (show s.state = stateAfter s.log from hs.1).trans hn
  simp only [perform, CryptoSession.open, ends_bind, ends_get, ends_ite, ends_throw]
  refine ⟨fun h => (h hstate).elim, fun _ => ?_⟩
  have hm : Move late s.log (s.log ++ [Event.assigned .opening, .stateChanged s.state]) := by
    rw [hstate]
    exact .start hn
  refine ends_mono (setState_ends hl (by simp)) (fun _ u hu => ?_)
    (fun _ u hu => reached_of_heard hs.2 hm hu)
  refine (handle_ends hl fuel).1 u (reached_of_heard hs.2 hm hu) (handshaking_of_heard ?_ hu)
  exact Or.inl (by simp [Event.assign])

theorem perform_invalid_ends (env : Environment) (fuel : ℕ) (hl : Listens late signal)
    (hs : Reached late s) (hn : stateAfter s.log = .invalid) (call : Call) :
    Ends (perform env signal fuel call) s (fun _ => Reached late) (fun _ => Reached late) := by
  by_cases hc : call = Call.open
  · subst hc
    exact open_ends env fuel hl hs hn
  · have hstate : s.state = .invalid := (show s.state = stateAfter s.log from hs.1).trans hn
    refine ends_mono (perform_rejected env signal fuel (rejected_of_invalid hstate hc))
      (fun _ _ hf => hf.elim) ?_
    rintro _ t ⟨-, rfl⟩
    exact hs

/-- One operation from outside any signal. -/
theorem operate_ends (h : late ∨ env.Quiet) (fuel : ℕ) (operation : Operation)
    (hs : Reached late s) :
    Ends (operate env fuel operation) s (fun _ => Reached late) (fun _ => Reached late) := by
  have hl := listeners_listens h fuel
  have hstate : s.state = stateAfter s.log := hs.1
  cases operation with
  | call call =>
    by_cases hn : stateAfter s.log = .invalid
    · exact perform_invalid_ends env fuel hl hs hn call
    · exact ends_mono (perform_ends env fuel hl hs.1 hn call) (fun _ t => reached_called hs)
        (fun _ t => reached_called hs)
  | readPacket packet =>
    simp only [operate, CryptoSession.readPacket, handlePacket, ends_bind, ends_modify, ends_get,
      ends_ite, ends_throw]
    refine ⟨fun ho => ?_, fun _ => ⟨fun ho => ?_, fun _ => hs⟩⟩
    · exact (handle_ends hl fuel).1 _ hs (by rw [Handshaking, ← hstate]; tauto)
    · exact (handle_ends hl fuel).2 _ hs (Or.inl (hstate.symm.trans ho))

theorem run_reached (h : late ∨ env.Quiet) (fuel : ℕ) (operations : List Operation)
    (hs : Reached late s) : Reached late (run env fuel s operations) := by
  induction operations generalizing s with
  | nil => exact hs
  | cons operation operations ih =>
    have ho := ends_const.mp (operate_ends h fuel operation hs)
    simp only [run]
    split
    · next t ht =>
      rw [ht] at ho
      exact ho
    · next t _ ht =>
      rw [ht] at ho
      exact ih ho

theorem reached_new : Reached late .new := ⟨rfl, .refl⟩

/-- The refinement: whatever the environment does, the history is one of the automaton. -/
theorem run_path (env : Environment) (fuel : ℕ) (operations : List Operation) :
    Path True (run env fuel .new operations).log :=
  (run_reached (Or.inl trivial) fuel operations reached_new).2

/-- With quiet listeners no handshake is continued on a closed session. -/
theorem run_path_of_quiet (h : env.Quiet) (fuel : ℕ) (operations : List Operation) :
    Path False (run env fuel .new operations).log :=
  (run_reached (Or.inr h) fuel operations reached_new).2

theorem run_tracks (env : Environment) (fuel : ℕ) (operations : List Operation) :
    (run env fuel .new operations).state = stateAfter (run env fuel .new operations).log := by
  have h : Reached True (run env fuel .new operations) :=
    run_reached (Or.inl trivial) fuel operations reached_new
  exact h.1

end Wetnork.Crypto
