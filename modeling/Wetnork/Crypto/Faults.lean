import Wetnork.Crypto.Notifications
import Wetnork.Crypto.Rejections
import Wetnork.Crypto.Results

/-! Where a fatal gnutls result goes: which calls pass it on and which ones drop it. -/
namespace Wetnork.Crypto

open Outcome History

variable {env : Environment} {signal : CryptoM Unit} {s t : CryptoSession} {l l' : Log}
  {fuel : ℕ} {x : Exception}

/-- A negative result that is none of those a session is to live through. -/
def FatalCode (code : ℤ) : Prop := code < 0 ∧ ¬ NonFatal code

/-- A result that `handleHandshake` or `handleData` looks at. -/
def Event.Checked (e : Event) (code : ℤ) : Prop := e = .handshake code ∨ e = .recordRecv code

/-- A result of `write` or `renegotiate`. -/
def Event.Unchecked (e : Event) (code : ℤ) : Prop := e = .recordSend code ∨ e = .rehandshake code

/-- Neither a result on which `fail` is called nor the state it leaves. -/
def Event.Mild (e : Event) : Prop := ¬ e.Fatal ∧ e ≠ .assigned .aborted

/-- Mild, and not from `write` or `renegotiate` either. -/
def Event.Inward (e : Event) : Prop := e.Mild ∧ ∀ code, ¬ e.Unchecked code

/-- The history has grown from `l` without a call of `fail`. -/
def Grown (l : Log) (s : CryptoSession) : Prop := Tracks s ∧ Adds Event.Mild l s.log

/-- The history has grown from `l` inwards, up to a call of `fail`. -/
def Failed (l : Log) (x : Exception) (s : CryptoSession) : Prop :=
  s.state = .aborted ∧ ∃ l' e code alert what, Adds Event.Inward l l' ∧ e.Checked code ∧
    s.log = l' ++ [e, .assigned .aborted, .cryptoException code] ∧
    x = .cryptoException code alert what

/-- How a method can end with an exception. -/
def Stopped (l : Log) (x : Exception) (s : CryptoSession) : Prop := Grown l s ∨ Failed l x s

theorem fatal_of_checked {e : Event} {code : ℤ} (he : e.Checked code) (hf : FatalCode code) :
    e.Fatal := by
  obtain ⟨hneg, hn⟩ := hf
  simp only [NonFatal, not_or] at hn
  rcases he with rfl | rfl
  · refine ⟨hn.1, hn.2.1, ?_⟩
    simp only [GNUTLS_E_SUCCESS]
    omega
  · exact ⟨hneg, hn.2.2.1⟩

theorem mild_of_inward (h : Adds Event.Inward l l') : Adds Event.Mild l l' :=
  adds_mono h fun _ he => he.1

theorem grown_of_adds (h : Adds Event.Mild l l') (hs : Grown l' s) : Grown l s :=
  ⟨hs.1, adds_trans h hs.2⟩

theorem stopped_of_adds (h : Adds Event.Inward l l') (hs : Stopped l' x s) : Stopped l x s := by
  rcases hs with hs | ⟨ha, l₁, e, code, alert, what, hl, hrest⟩
  · exact Or.inl (grown_of_adds (mild_of_inward h) hs)
  · exact Or.inr ⟨ha, l₁, e, code, alert, what, adds_trans h hl, hrest⟩

/-- How a method ends does not depend on inward events before it. -/
theorem ends_of_adds {method : CryptoM Unit} (h : Adds Event.Inward l l')
    (hm : Ends method s (fun _ => Grown l') (Stopped l')) :
    Ends method s (fun _ => Grown l) (Stopped l) :=
  ends_mono hm (fun _ _ ht => grown_of_adds (mild_of_inward h) ht)
    (fun _ _ ht => stopped_of_adds h ht)

/-- What calls from inside a signal add is mild. -/
theorem calls_mild (h : CallPath l l') : Adds Event.Mild l l' := by
  induction h with
  | refl => exact adds_refl
  | tail _ hm ih =>
    apply adds_trans ih
    cases hm <;> exact adds_append (by simp [Event.Mild, Event.Fatal])

/-- While the session is not open, they neither send nor rehandshake, and do not open it. -/
theorem calls_inward (h : CallPath l l') (hs : stateAfter l ≠ State.open) :
    stateAfter l' ≠ State.open ∧ Adds Event.Inward l l' := by
  induction h with
  | refl => exact ⟨hs, adds_refl⟩
  | tail _ hm ih =>
    cases hm with
    | renegotiate ret ho => exact absurd ho ih.1
    | close ret ho =>
      refine ⟨by simp [Event.assign], adds_trans ih.2 (adds_append ?_)⟩
      simp [Event.Inward, Event.Mild, Event.Fatal, Event.Unchecked]
    | send ret ho hr => exact absurd ho ih.1
    | sendFails ret ho ha hr => exact absurd ho ih.1

theorem grown_of_called (h : Called l s) : Grown l s := ⟨h.1, calls_mild h.2⟩

theorem setState_grown (hl : Listens True signal) {state : State} (hs : state ≠ .invalid)
    (ha : state ≠ .aborted) (h : Adds Event.Mild l s.log) :
    Ends (setState signal state) s (fun _ => Grown l) (Stopped l) := by
  have hadd : Adds Event.Mild l (s.log ++ [Event.assigned state, .stateChanged s.state]) :=
    adds_trans h (adds_append (by simp [Event.Mild, Event.Fatal, ha]))
  have hgrown : ∀ t, Heard True (s.log ++ [Event.assigned state, .stateChanged s.state]) t →
      Grown l t := fun t ht => grown_of_adds hadd (grown_of_called ht.1)
  exact ends_mono (setState_ends hl hs) (fun _ t ht => hgrown t ht)
    (fun _ t ht => Or.inl (hgrown t ht))

theorem fail_stopped {e : Event} {code : ℤ} (he : e.Checked code) (hs : s.log = l ++ [e]) :
    Ends (fail env code) s (fun _ => Grown l) (Stopped l) := by
  simp only [fail, record, ends_bind, ends_modify, ends_get, ends_throw]
  exact Or.inr ⟨rfl, l, e, code, _, _, adds_refl, he, by simp [hs], rfl⟩

/-- A handshake that is taken up after a signal: before it, the listeners run in a state in which
all they can do is close the session. -/
theorem resume_stops (hl : Listens True signal)
    (hhandshake : ∀ s, Tracks s → s.state ≠ .invalid →
      Ends (handleHandshake env signal fuel) s (fun _ => Grown s.log) (Stopped s.log))
    {state : State} (hst : state = .opening ∨ state = .renegotiating)
    (h : Adds Event.Inward l s.log) :
    Ends (setState signal state) s
      (fun _ t => Ends (handleHandshake env signal fuel) t (fun _ => Grown l) (Stopped l))
      (Stopped l) := by
  have hadd : Adds Event.Inward l (s.log ++ [Event.assigned state, .stateChanged s.state]) := by
    apply adds_trans h (adds_append _)
    rcases hst with rfl | rfl <;>
      simp [Event.Inward, Event.Mild, Event.Fatal, Event.Unchecked]
  refine ends_mono (setState_ends hl ?_) (fun _ t ht => ?_)
    (fun _ t ht => Or.inl (grown_of_adds (mild_of_inward hadd) (grown_of_called ht.1)))
  · rcases hst with rfl | rfl <;> simp
  · have hne : stateAfter (s.log ++ [Event.assigned state, .stateChanged s.state]) ≠
        State.open := by
      rcases hst with rfl | rfl <;> simp [Event.assign]
    have hlive : t.state ≠ .invalid := by
      rw [show t.state = stateAfter t.log from ht.1.1]
      apply calls_ne_invalid ht.1.2
      rcases hst with rfl | rfl <;> simp [Event.assign]
    have ht' := adds_trans hadd (calls_inward ht.1.2 hne).2
    exact ends_of_adds ht' (hhandshake t ht.1.1 hlive)

/-- A handshake passes every result on which it fails to the caller. -/
theorem handleHandshake_stops (hl : Listens True signal)
    (hdata : ∀ s, Tracks s → s.state ≠ .invalid →
      Ends (handleData env signal fuel) s (fun _ => Grown s.log) (Stopped s.log))
    (hs : Tracks s) (hn : s.state ≠ .invalid) :
    Ends (handleHandshake env signal (fuel + 1)) s (fun _ => Grown s.log) (Stopped s.log) := by
  have hstate : s.state = stateAfter s.log := hs
  simp only [handleHandshake, gnutlsHandshake, ends_bind, ends_get]
  apply gnutls_ends
  intro t ht hlog
  have htr : Tracks t := by simp [Tracks, ht, hlog, hstate, Event.assign]
  simp only [ends_ite, ends_pure]
  refine ⟨fun hr => ?_, fun hd => ⟨fun hr => ?_, fun ha => ⟨fun hr => ?_, fun hz => ?_⟩⟩⟩
  · have hadd : Adds Event.Inward s.log t.log := by
      rw [hlog]
      exact adds_append (by simp [Event.Inward, Event.Mild, Event.Fatal, Event.Unchecked, hr])
    exact ends_of_adds hadd (hdata t htr (by rwa [ht]))
  · refine ⟨htr, ?_⟩
    rw [hlog]
    exact adds_append (by simp [Event.Mild, Event.Fatal, hr])
  · apply setState_grown hl (by simp) (by simp)
    rw [hlog]
    exact adds_append (by simp [Event.Mild, Event.Fatal, hr])
  · exact fail_stopped (Or.inl rfl) hlog

/-- Likewise for data, as nothing is sent before a handshake that it has to take up. -/
theorem handleData_stops (hl : Listens True signal)
    (hhandshake : ∀ s, Tracks s → s.state ≠ .invalid →
      Ends (handleHandshake env signal fuel) s (fun _ => Grown s.log) (Stopped s.log))
    (hs : Tracks s) (hn : s.state ≠ .invalid) :
    Ends (handleData env signal (fuel + 1)) s (fun _ => Grown s.log) (Stopped s.log) := by
  have hstate : s.state = stateAfter s.log := hs
  simp only [handleData, gnutlsRecordRecv, ends_bind, ends_get, ends_pure]
  apply gnutls_ends
  intro t ht hlog
  simp only [ends_ite, ends_bind, ends_get]
  refine ⟨fun hneg => ⟨fun hre => ?_, fun hre => ?_⟩, fun hpos => ⟨fun hz => ⟨fun hc => ?_,
    fun hc => ?_⟩, fun hz => ?_⟩⟩
  · apply resume_stops hl hhandshake (Or.inr rfl)
    rw [hlog]
    exact adds_append (by simp [Event.Inward, Event.Mild, Event.Fatal, Event.Unchecked, hre])
  · exact fail_stopped (Or.inr rfl) hlog
  · simp only [gnutlsBye, ends_bind, ends_get]
    apply gnutls_ends
    intro u hu hulog
    apply setState_grown hl (by simp) (by simp)
    rw [hulog, hlog, List.append_assoc]
    exact adds_append (by simp [Event.Mild, Event.Fatal, hz])
  · apply setState_grown hl (by simp) (by simp)
    rw [hlog]
    exact adds_append (by simp [Event.Mild, Event.Fatal, hz])
  · simp only [propagate, record, ends_bind, ends_modify]
    have hgrown : ∀ u, Heard True (t.log ++ [Event.propagate (Packet.ofBytes
        ((env.recordRecv s.log).buffer.take (env.recordRecv s.log).ret.toNat))]) u →
        Grown s.log u := by
      intro u hu
      refine grown_of_adds ?_ (grown_of_called hu.1)
      rw [hlog, List.append_assoc]
      exact adds_append (by simp [Event.Mild, Event.Fatal, not_lt.mp hpos])
    refine ends_mono (hl _ ?_ ?_) (fun _ u hu => hgrown u hu) (fun _ u hu => Or.inl (hgrown u hu))
    · simp [Tracks, ht, hlog, hstate, Event.assign]
    · simpa [hlog, Event.assign, ← hstate] using hn

/-- The mutual recursion, by induction on the fuel. -/
theorem handle_stops (hl : Listens True signal) (fuel : ℕ) :
    (∀ s, Tracks s → s.state ≠ .invalid →
      Ends (handleHandshake env signal fuel) s (fun _ => Grown s.log) (Stopped s.log)) ∧
    (∀ s, Tracks s → s.state ≠ .invalid →
      Ends (handleData env signal fuel) s (fun _ => Grown s.log) (Stopped s.log)) := by
  induction fuel with
  | zero =>
    have hrefl : ∀ s : CryptoSession, Tracks s → Stopped s.log .unfinished s :=
      fun s hs => Or.inl ⟨hs, adds_refl⟩
    exact ⟨fun s hs _ => by simpa [handleHandshake] using hrefl s hs,
      fun s hs _ => by simpa [handleData] using hrefl s hs⟩
  | succ fuel ih =>
    exact ⟨fun s => handleHandshake_stops hl ih.2, fun s => handleData_stops hl ih.1⟩

/-- `open` notifies its listeners and takes up the handshake. -/
theorem open_stops (env : Environment) (fuel : ℕ) (hl : Listens True signal)
    (hs : s.state = .invalid) :
    Ends (perform env signal fuel Call.open) s (fun _ => Grown s.log) (Stopped s.log) := by
  simp only [perform, CryptoSession.open, ends_bind, ends_get, ends_ite, ends_throw]
  refine ⟨fun hn => absurd hs hn, fun _ => ?_⟩
  exact resume_stops hl (handle_stops hl fuel).1 (Or.inl rfl) adds_refl

/-- One operation: no result is failed on, or the last one and nothing has been sent before. -/
theorem operate_stops (env : Environment) (fuel : ℕ) (operation : Operation) (hs : Tracks s) :
    Ends (operate env fuel operation) s (fun _ => Grown s.log) (Stopped s.log) := by
  have hl : Listens True (listeners env fuel) := listeners_listens (Or.inl trivial) fuel
  have hstate : s.state = stateAfter s.log := hs
  have hrefl : Grown s.log s := ⟨hs, adds_refl⟩
  cases operation with
  | readPacket packet =>
    simp only [operate, CryptoSession.readPacket, handlePacket, ends_bind, ends_modify, ends_get,
      ends_ite, ends_throw]
    refine ⟨fun ho => ?_, fun _ => ⟨fun ho => ?_, fun _ => Or.inl hrefl⟩⟩
    · refine (handle_stops hl fuel).1 _ hs ?_
      rcases ho with ho | ho <;> simp [ho]
    · exact (handle_stops hl fuel).2 _ hs (by simp [ho])
  | call call =>
    by_cases hn : stateAfter s.log = .invalid
    · have hinv := hstate.trans hn
      by_cases hc : call = Call.open
      · subst hc
        exact open_stops env fuel hl hinv
      · refine ends_mono (perform_rejected env _ fuel (rejected_of_invalid hinv hc))
          (fun _ _ hf => hf.elim) ?_
        rintro _ t ⟨-, rfl⟩
        exact Or.inl hrefl
    · exact ends_mono (perform_ends env fuel hl hs hn call) (fun _ t ht => grown_of_called ht)
        (fun _ t ht => Or.inl (grown_of_called ht))

theorem stateAfter_mild {es : Log} (he : ∀ e ∈ es, e.Mild) (hl : stateAfter l ≠ .aborted) :
    stateAfter (l ++ es) ≠ .aborted := by
  induction es generalizing l with
  | nil => simpa using hl
  | cons e es ih =>
    rw [List.append_cons]
    apply ih (fun y hy => he y (List.mem_cons_of_mem e hy))
    have hne := (he e List.mem_cons_self).2
    cases e with
    | assigned state =>
      intro hs
      simp [Event.assign] at hs
      exact hne (by rw [hs])
    | _ => simpa [Event.assign] using hl

/-- Every fatal result among the events is thrown as it is, and the session is aborted. -/
def Reports (es : Log) (r : Except Exception Unit × CryptoSession) : Prop :=
  ∀ e ∈ es, ∀ code, e.Checked code ∨ e.Unchecked code → FatalCode code →
    (∃ alert what, r.1 = .error (.cryptoException code alert what)) ∧ r.2.state = .aborted

/-- Without a call of `fail`, only results that nobody looks at can be fatal. -/
theorem reports_iff_of_mild {es : Log} {r : Except Exception Unit × CryptoSession}
    (he : ∀ e ∈ es, e.Mild) (hr : r.2.state = .aborted → es = []) :
    Reports es r ↔ ∀ e ∈ es, ∀ code, e.Unchecked code → ¬ FatalCode code := by
  constructor
  · intro h e hmem code hu hf
    have hnil := hr (h e hmem code (Or.inr hu) hf).2
    simp [hnil] at hmem
  · rintro h e hmem code (hc | hu) hf
    · exact absurd (fatal_of_checked hc hf) (he e hmem).1
    · exact absurd hf (h e hmem code hu)

/-- A call of `fail` reports the one fatal result there is. -/
theorem reports_of_failed (h : Failed l x s) :
    ∃ es, s.log = l ++ es ∧ Reports es (.error x, s) ∧
      ∀ e ∈ es, ∀ code, e.Unchecked code → ¬ FatalCode code := by
  obtain ⟨ha, l', e, code, alert, what, ⟨es, rfl, he⟩, hc, hlog, rfl⟩ := h
  refine ⟨es ++ [e, .assigned .aborted, .cryptoException code], by simpa using hlog, ?_, ?_⟩
  · intro y hy c hyc hf
    rcases List.mem_append.mp hy with hy | hy
    · rcases hyc with hyc | hyc
      · exact absurd (fatal_of_checked hyc hf) (he y hy).1.1
      · exact absurd hyc ((he y hy).2 c)
    · have hcode : c = code := by
        rcases hc with rfl | rfl <;> simp [Event.Checked, Event.Unchecked] at hy hyc <;>
          rcases hy with rfl | rfl | rfl <;> simp_all
      subst hcode
      exact ⟨⟨alert, what, rfl⟩, ha⟩
  · intro y hy c hyc
    rcases List.mem_append.mp hy with hy | hy
    · exact absurd hyc ((he y hy).2 c)
    · rcases hc with rfl | rfl <;> simp [Event.Unchecked] at hy hyc <;>
        rcases hy with rfl | rfl | rfl <;> simp_all

theorem rejected_of_aborted (hs : s.state = .aborted) (operation : Operation) :
    operation.Rejected s.state := by
  cases operation with
  | call c => cases c <;> simp [Operation.Rejected, Call.Rejected, hs]
  | readPacket packet => simp [Operation.Rejected, hs]

theorem rejected_log (env : Environment) (fuel : ℕ) {operation : Operation}
    (h : operation.Rejected s.state) :
    ((operate env fuel operation).run s).2.log = s.log := by
  refine (ends_const (P := fun t : CryptoSession => t.log = s.log)).mp ?_
  refine ends_mono (operate_rejected env fuel h) (fun _ _ hf => hf.elim) ?_
  rintro _ t ⟨-, rfl⟩
  cases operation <;> rfl

/-- If the session is not aborted before, it is not aborted by mild events either. -/
theorem reports_iff_of_grown {r : Except Exception Unit × CryptoSession} (hs : Tracks s)
    (ha : s.state ≠ .aborted) (h : Grown s.log r.2) :
    ∃ es, r.2.log = s.log ++ es ∧
      (Reports es r ↔ ∀ e ∈ es, ∀ code, e.Unchecked code → ¬ FatalCode code) := by
  obtain ⟨ht, es, hlog, he⟩ := h
  refine ⟨es, hlog, reports_iff_of_mild he fun hr => ?_⟩
  have hne : stateAfter (s.log ++ es) ≠ .aborted :=
    stateAfter_mild he (by rwa [← show s.state = stateAfter s.log from hs])
  rw [← hlog, ← show r.2.state = stateAfter r.2.log from ht] at hne
  exact absurd hr hne

/-- The fatal results of an operation are thrown and abort the session exactly if none of them is
one of `gnutls_record_send` or `gnutls_rehandshake`: `write` throws without aborting, and
`renegotiate` does not look at the result. -/
theorem fatal_reported_iff (env : Environment) (fuel : ℕ) (operations : List Operation)
    (operation : Operation) :
    let s := run env fuel .new operations
    let r := (operate env fuel operation).run s
    ∃ es, r.2.log = s.log ++ es ∧
      (Reports es r ↔ ∀ e ∈ es, ∀ code, e.Unchecked code → ¬ FatalCode code) := by
  intro s r
  have hs : Tracks s := run_tracks env fuel operations
  by_cases ha : s.state = .aborted
  · have hlog : r.2.log = s.log := rejected_log env fuel (rejected_of_aborted ha operation)
    exact ⟨[], by simpa using hlog, by simp [Reports]⟩
  · have hstop := operate_stops env fuel operation hs
    unfold Ends at hstop
    rcases hr : r with ⟨res, t⟩
    rw [show (operate env fuel operation).run s = r from rfl, hr] at hstop
    cases res with
    | ok a => exact reports_iff_of_grown hs ha hstop
    | error e =>
      rcases hstop with hg | hf
      · exact reports_iff_of_grown hs ha hg
      · obtain ⟨es, hlog, hrep, hnone⟩ := reports_of_failed hf
        exact ⟨es, hlog, ⟨fun _ => hnone, fun _ => hrep⟩⟩

/-- An open session whose transport has failed (`GNUTLS_E_PUSH_ERROR`) stays open, and goes on as
if nothing had happened when it is renegotiated. -/
theorem push_error_unreported :
    let env := { Environment.scripted (fun _ => 0) (fun _ => 1) (fun _ => -53) (fun _ => []) with
      rehandshake := fun _ => ⟨[], -53⟩ }
    let s := run env 1 .new [.call Call.open]
    let w := (operate env 1 (.call (.write (Packet.ofBytes [7])))).run s
    let n := (operate env 1 (.call .renegotiate)).run s
    FatalCode (-53) ∧
    w.2.log = s.log ++ [.recordSend (-53), .cryptoException (-53)] ∧
    w.2.state = State.open ∧
    ¬ Reports [.recordSend (-53), .cryptoException (-53)] w ∧
    n.2.log = s.log ++ [.rehandshake (-53), .assigned .renegotiating, .stateChanged State.open] ∧
    n.1 = .ok () ∧
    ¬ Reports [.rehandshake (-53), .assigned .renegotiating, .stateChanged State.open] n := by
  intro env s w n
  have hf : FatalCode (-53) := by
    simp [FatalCode, NonFatal, GNUTLS_E_GOT_APPLICATION_DATA, GNUTLS_E_AGAIN,
      GNUTLS_E_REHANDSHAKE, GNUTLS_E_WARNING_ALERT_RECEIVED]
  have hw : w.2.state = State.open := rfl
  have hn : n.2.state = .renegotiating := rfl
  refine ⟨hf, rfl, hw, fun h => ?_, rfl, rfl, fun h => ?_⟩
  · have ha := (h _ List.mem_cons_self (-53) (Or.inr (Or.inl rfl)) hf).2
    simp [hw] at ha
  · have ha := (h _ List.mem_cons_self (-53) (Or.inr (Or.inr rfl)) hf).2
    simp [hn] at ha

end Wetnork.Crypto
