import Wetnork.Crypto.Refinement

/-! The data of a session: what gnutls has received is passed on as it is, in order, once and at
once, and one record at most for each packet that arrives. -/
namespace Wetnork.Crypto

open Outcome History

variable {env : Environment} {signal : CryptoM Unit} {fuel : ℕ} {s t : CryptoSession}
  {l l' l'' : Log}

def RecvReply.data (reply : RecvReply) : Bytes := reply.buffer.take reply.ret.toNat

/-- What `gnutls_record_recv` has returned data for, if it was asked after `l`. -/
def dataOf (env : Environment) (l : Log) : Event → List Bytes
  | .recordRecv ret => if 0 < ret then [(env.recordRecv l).data] else []
  | _ => []

/-- The data that gnutls has received over a history. -/
def received (env : Environment) (l : Log) : List Bytes := shown (dataOf env) l

def packetOf : Event → Option Packet
  | .propagate packet => some packet
  | _ => none

/-- The packets that have been passed on over a history. -/
def propagated (l : Log) : List Packet := l.filterMap packetOf

/-- Everything that has been received has been passed on. -/
def PassedOn (env : Environment) (l : Log) : Prop :=
  propagated l = (received env l).map Packet.ofBytes

/-- Whether an operation can get data: a call of `open` may, if it is the first one. -/
def Operation.receives : Operation → Bool
  | .call Call.open => true
  | .call _ => false
  | .readPacket _ => true

/-- Events that carry no data. -/
def Event.Silent (e : Event) : Prop := packetOf e = none ∧ ∀ ret, e = .recordRecv ret → ret ≤ 0

/-- The history has been extended by one record at most, which has been passed on. -/
def Relays (env : Environment) (l l' : Log) : Prop :=
  Adds Event.Silent l l' ∨ ∃ m, Adds Event.Silent l m ∧ 0 < (env.recordRecv m).ret ∧
    Adds Event.Silent (m ++ [Event.recordRecv (env.recordRecv m).ret,
      .propagate (Packet.ofBytes (env.recordRecv m).data)]) l'

theorem relays_of_adds (h : Adds Event.Silent l l') (h' : Relays env l' l'') :
    Relays env l l'' := by
  rcases h' with h' | ⟨m, hm, hpos, h'⟩
  · exact Or.inl (adds_trans h h')
  · exact Or.inr ⟨m, adds_trans h hm, hpos, h'⟩

/-- What calls from inside a signal add carries no data. -/
theorem calls_silent (h : CallPath l l') : Adds Event.Silent l l' := by
  induction h with
  | refl => exact adds_refl
  | tail _ hm ih =>
    apply adds_trans ih
    cases hm <;> exact adds_append (by simp [Event.Silent, packetOf])

/-- A method has ended, with `l` the history when it began. -/
def Relayed (env : Environment) (l : Log) (s : CryptoSession) : Prop :=
  Tracks s ∧ Relays env l s.log

theorem relayed_of_heard (h : Adds Event.Silent l l') (hs : Heard True l' s) :
    Relayed env l s :=
  ⟨hs.1.1, Or.inl (adds_trans h (calls_silent hs.1.2))⟩

theorem ends_of_silent {method : CryptoM Unit} (h : Adds Event.Silent l l')
    (hm : Ends method s (fun _ => Relayed env l') (fun _ => Relayed env l')) :
    Ends method s (fun _ => Relayed env l) (fun _ => Relayed env l) :=
  ends_mono hm (fun _ _ ht => ⟨ht.1, relays_of_adds h ht.2⟩)
    (fun _ _ ht => ⟨ht.1, relays_of_adds h ht.2⟩)

theorem setState_relayed (hl : Listens True signal) {state : State} (hs : state ≠ .invalid)
    (h : Adds Event.Silent l s.log) :
    Ends (setState signal state) s (fun _ => Relayed env l) (fun _ => Relayed env l) := by
  have hadd : Adds Event.Silent l (s.log ++ [Event.assigned state, .stateChanged s.state]) :=
    adds_trans h (adds_append (by simp [Event.Silent, packetOf]))
  exact ends_mono (setState_ends hl hs) (fun _ _ ht => relayed_of_heard hadd ht)
    (fun _ _ ht => relayed_of_heard hadd ht)

theorem fail_relayed {code : ℤ} (h : Adds Event.Silent l s.log) :
    Ends (fail env code) s (fun _ => Relayed env l) (fun _ => Relayed env l) := by
  simp only [fail, record, ends_bind, ends_modify, ends_get, ends_throw]
  refine ⟨by simp [Tracks, Event.assign], Or.inl (adds_trans h ?_)⟩
  rw [List.append_assoc]
  exact adds_append (by simp [Event.Silent, packetOf])

/-- A handshake that is taken up after a signal, whose listeners do not receive. -/
theorem resume_relayed (hl : Listens True signal)
    (hhandshake : ∀ s, Tracks s → s.state ≠ .invalid →
      Ends (handleHandshake env signal fuel) s (fun _ => Relayed env s.log)
        (fun _ => Relayed env s.log))
    {state : State} (hst : state ≠ .invalid) (h : Adds Event.Silent l s.log) :
    Ends (setState signal state) s
      (fun _ t => Ends (handleHandshake env signal fuel) t (fun _ => Relayed env l)
        (fun _ => Relayed env l)) (fun _ => Relayed env l) := by
  have hadd : Adds Event.Silent l (s.log ++ [Event.assigned state, .stateChanged s.state]) :=
    adds_trans h (adds_append (by simp [Event.Silent, packetOf]))
  refine ends_mono (setState_ends hl hst) (fun _ t ht => ?_)
    (fun _ _ ht => relayed_of_heard hadd ht)
  have hlive : t.state ≠ .invalid := by
    rw [show t.state = stateAfter t.log from ht.1.1]
    exact calls_ne_invalid ht.1.2 (by simpa [Event.assign] using hst)
  exact ends_of_silent (adds_trans hadd (calls_silent ht.1.2)) (hhandshake t ht.1.1 hlive)

theorem handleHandshake_relayed (hl : Listens True signal)
    (hdata : ∀ s, Tracks s → s.state ≠ .invalid →
      Ends (handleData env signal fuel) s (fun _ => Relayed env s.log)
        (fun _ => Relayed env s.log))
    (hs : Tracks s) (hn : s.state ≠ .invalid) :
    Ends (handleHandshake env signal (fuel + 1)) s (fun _ => Relayed env s.log)
      (fun _ => Relayed env s.log) := by
  have hstate : s.state = stateAfter s.log := hs
  simp only [handleHandshake, gnutlsHandshake, ends_bind, ends_get]
  apply gnutls_ends
  intro t ht hlog
  have htr : Tracks t := by simp [Tracks, ht, hlog, hstate, Event.assign]
  have hadd : Adds Event.Silent s.log t.log := by
    rw [hlog]
    exact adds_append (by simp [Event.Silent, packetOf])
  simp only [ends_ite, ends_pure]
  refine ⟨fun _ => ?_, fun _ => ⟨fun _ => ?_, fun _ => ⟨fun _ => ?_, fun _ => ?_⟩⟩⟩
  · exact ends_of_silent hadd (hdata t htr (by rwa [ht]))
  · exact ⟨htr, Or.inl hadd⟩
  · exact setState_relayed hl (by simp) hadd
  · exact fail_relayed hadd

/-- Between the result and the signal for it there is nothing else, and after the signal the
method is through. -/
theorem handleData_relayed (hl : Listens True signal)
    (hhandshake : ∀ s, Tracks s → s.state ≠ .invalid →
      Ends (handleHandshake env signal fuel) s (fun _ => Relayed env s.log)
        (fun _ => Relayed env s.log))
    (hs : Tracks s) (hn : s.state ≠ .invalid) :
    Ends (handleData env signal (fuel + 1)) s (fun _ => Relayed env s.log)
      (fun _ => Relayed env s.log) := by
  have hstate : s.state = stateAfter s.log := hs
  simp only [handleData, gnutlsRecordRecv, ends_bind, ends_get, ends_pure]
  apply gnutls_ends
  intro t ht hlog
  have hadd : (env.recordRecv s.log).ret ≤ 0 → Adds Event.Silent s.log t.log := by
    intro hle
    rw [hlog]
    exact adds_append (by simpa [Event.Silent, packetOf] using hle)
  simp only [ends_ite, ends_bind, ends_get]
  refine ⟨fun hneg => ⟨fun _ => ?_, fun _ => ?_⟩, fun hpos => ⟨fun hz => ⟨fun _ => ?_,
    fun _ => ?_⟩, fun hz => ?_⟩⟩
  · exact resume_relayed hl hhandshake (by simp) (hadd hneg.le)
  · exact fail_relayed (hadd hneg.le)
  · simp only [gnutlsBye, ends_bind, ends_get]
    apply gnutls_ends
    intro u hu hulog
    apply setState_relayed hl (by simp) (adds_trans (hadd hz.le) _)
    rw [hulog]
    exact adds_append (by simp [Event.Silent, packetOf])
  · exact setState_relayed hl (by simp) (hadd hz.le)
  · simp only [propagate, record, ends_bind, ends_modify]
    have hrelayed : ∀ u, Heard True (t.log ++ [Event.propagate (Packet.ofBytes
        ((env.recordRecv s.log).buffer.take (env.recordRecv s.log).ret.toNat))]) u →
        Relayed env s.log u := by
      intro u hu
      refine ⟨hu.1.1, Or.inr ⟨s.log, adds_refl, by omega, ?_⟩⟩
      have hcalls := calls_silent hu.1.2
      rw [hlog, List.append_assoc] at hcalls
      exact hcalls
    refine ends_mono (hl _ ?_ ?_) (fun _ => hrelayed) (fun _ => hrelayed)
    · simp [Tracks, ht, hlog, hstate, Event.assign]
    · simpa [hlog, Event.assign, ← hstate] using hn

/-- The mutual recursion, by induction on the fuel. -/
theorem handle_relayed (hl : Listens True signal) (fuel : ℕ) :
    (∀ s, Tracks s → s.state ≠ .invalid →
      Ends (handleHandshake env signal fuel) s (fun _ => Relayed env s.log)
        (fun _ => Relayed env s.log)) ∧
    (∀ s, Tracks s → s.state ≠ .invalid →
      Ends (handleData env signal fuel) s (fun _ => Relayed env s.log)
        (fun _ => Relayed env s.log)) := by
  induction fuel with
  | zero =>
    have hrefl : ∀ s : CryptoSession, Tracks s → Relayed env s.log s :=
      fun s hs => ⟨hs, Or.inl adds_refl⟩
    exact ⟨fun s hs _ => by simpa [handleHandshake] using hrefl s hs,
      fun s hs _ => by simpa [handleData] using hrefl s hs⟩
  | succ fuel ih =>
    exact ⟨fun s => handleHandshake_relayed hl ih.2, fun s => handleData_relayed hl ih.1⟩

/-- One operation from outside any signal. -/
theorem operate_relayed (env : Environment) (fuel : ℕ) (operation : Operation) (hs : Tracks s) :
    let ended t := Relayed env s.log t ∧
      (operation.receives = false → Adds Event.Silent s.log t.log)
    Ends (operate env fuel operation) s (fun _ => ended) (fun _ => ended) := by
  intro ended
  have hl : Listens True (listeners env fuel) := listeners_listens (Or.inl trivial) fuel
  have hstate : s.state = stateAfter s.log := hs
  have hrefl : ended s := ⟨⟨hs, Or.inl adds_refl⟩, fun _ => adds_refl⟩
  have hboth : ∀ {method : CryptoM Unit} {u : CryptoSession}, operation.receives = true →
      Ends method u (fun _ => Relayed env s.log) (fun _ => Relayed env s.log) →
      Ends method u (fun _ => ended) (fun _ => ended) := by
    intro method u hr hm
    exact ends_mono hm (fun _ t ht => ⟨ht, fun hf => by simp [hr] at hf⟩)
      (fun _ t ht => ⟨ht, fun hf => by simp [hr] at hf⟩)
  cases operation with
  | readPacket packet =>
    apply hboth rfl
    simp only [operate, CryptoSession.readPacket, handlePacket, ends_bind, ends_modify, ends_get,
      ends_ite, ends_throw]
    refine ⟨fun ho => ?_, fun _ => ⟨fun ho => ?_, fun _ => hrefl.1⟩⟩
    · refine (handle_relayed hl fuel).1 _ hs ?_
      rcases ho with ho | ho <;> simp [ho]
    · exact (handle_relayed hl fuel).2 _ hs (by simp [ho])
  | call call =>
    by_cases hn : stateAfter s.log = .invalid
    · have hinv := hstate.trans hn
      by_cases hc : call = Call.open
      · subst hc
        apply hboth rfl
        simp only [operate, perform, CryptoSession.open, ends_bind, ends_get, ends_ite, ends_throw]
        exact ⟨fun hne => absurd hinv hne, fun _ =>
          resume_relayed hl (handle_relayed hl fuel).1 (by simp) adds_refl⟩
      · refine ends_mono (perform_rejected env _ fuel (rejected_of_invalid hinv hc))
          (fun _ _ hf => hf.elim) ?_
        rintro _ t ⟨-, rfl⟩
        exact hrefl
    · have hcalled : ∀ t, Called s.log t → ended t := fun t ht =>
        ⟨⟨ht.1, Or.inl (calls_silent ht.2)⟩, fun _ => calls_silent ht.2⟩
      exact ends_mono (perform_ends env fuel hl hs hn call) (fun _ => hcalled) (fun _ => hcalled)

/-- Nothing but the signal happens while something that has been received is not passed on. -/
def AtOnce (env : Environment) (l : Log) (e : Event) : Prop :=
  (∃ packet, e = .propagate packet) ∨ PassedOn env l

/-- What is true of the data after every operation. -/
structure Intact (env : Environment) (l : Log) : Prop where
  passedOn : PassedOn env l
  atOnce : Always (AtOnce env) l

theorem silent_step {e : Event} (he : e.Silent) :
    propagated (l ++ [e]) = propagated l ∧ received env (l ++ [e]) = received env l := by
  constructor
  · simp [propagated, he.1]
  · rw [received, shown_concat]
    cases e with
    | recordRecv ret => simp [received, dataOf, he.2 ret rfl]
    | _ => simp [received, dataOf]

theorem intact_silent (h : Intact env l) (ha : Adds Event.Silent l l') :
    Intact env l' ∧ propagated l' = propagated l := by
  obtain ⟨es, rfl, he⟩ := ha
  induction es generalizing l with
  | nil => exact ⟨by simpa using h, by simp⟩
  | cons e es ih =>
    obtain ⟨hp, hr⟩ := @silent_step env l e (he e List.mem_cons_self)
    have hstep : Intact env (l ++ [e]) := by
      refine ⟨?_, always_concat.mpr ⟨h.atOnce, Or.inr h.passedOn⟩⟩
      rw [PassedOn, hp, hr]
      exact h.passedOn
    rw [List.append_cons, ← hp]
    exact ih hstep fun y hy => he y (List.mem_cons_of_mem e hy)

theorem intact_record (h : Intact env l) (hpos : 0 < (env.recordRecv l).ret) :
    let l' := l ++ [Event.recordRecv (env.recordRecv l).ret,
      .propagate (Packet.ofBytes (env.recordRecv l).data)]
    Intact env l' ∧ (propagated l').length = (propagated l).length + 1 := by
  intro l'
  have hp : propagated l' = propagated l ++ [Packet.ofBytes (env.recordRecv l).data] := by
    rw [propagated, List.filterMap_append]
    rfl
  have hr : received env l' = received env l ++ [(env.recordRecv l).data] := by
    have hl : l' = (l ++ [Event.recordRecv (env.recordRecv l).ret]) ++
      [Event.propagate (Packet.ofBytes (env.recordRecv l).data)] := by simp [l']
    rw [received, hl, shown_concat, shown_concat]
    simp [received, dataOf, hpos]
  refine ⟨⟨?_, always_append.mpr ⟨h.atOnce, Or.inr h.passedOn, Or.inl ⟨_, rfl⟩, trivial⟩⟩, ?_⟩
  · rw [PassedOn, hp, hr, h.passedOn]
    simp
  · simp [hp]

theorem intact_relays (h : Intact env l) (hr : Relays env l l') :
    Intact env l' ∧ (propagated l').length ≤ (propagated l).length + 1 := by
  rcases hr with hr | ⟨m, hm, hpos, hr⟩
  · obtain ⟨hd, hp⟩ := intact_silent h hr
    exact ⟨hd, by simp [hp]⟩
  · obtain ⟨hd, hp⟩ := intact_silent h hm
    obtain ⟨hd', hlen⟩ := intact_record hd hpos
    obtain ⟨hd'', hp'⟩ := intact_silent hd' hr
    refine ⟨hd'', ?_⟩
    rw [hp', hlen, hp]

theorem operate_intact (env : Environment) (fuel : ℕ) (operation : Operation) (hs : Tracks s)
    (h : Intact env s.log) :
    let t := ((operate env fuel operation).run s).2
    Tracks t ∧ Intact env t.log ∧ (propagated t.log).length ≤
      (propagated s.log).length + operation.receives.toNat := by
  obtain ⟨⟨ht, hr⟩, hq⟩ := ends_const.mp (operate_relayed env fuel operation hs)
  refine ⟨ht, (intact_relays h hr).1, ?_⟩
  cases hop : operation.receives with
  | true => exact (intact_relays h hr).2
  | false =>
    rw [(intact_silent h (hq hop)).2]
    exact Nat.le_add_right _ _

theorem run_intact (env : Environment) (fuel : ℕ) (operations : List Operation)
    (hs : Tracks s) (h : Intact env s.log) :
    let t := run env fuel s operations
    Intact env t.log ∧ (propagated t.log).length ≤
      (propagated s.log).length + operations.countP Operation.receives := by
  induction operations generalizing s with
  | nil => exact ⟨h, le_rfl⟩
  | cons operation operations ih =>
    obtain ⟨ht, hd, hlen⟩ := operate_intact env fuel operation hs h
    have hcount : (operation :: operations).countP Operation.receives =
        operation.receives.toNat + operations.countP Operation.receives := by
      rw [List.countP_cons, Nat.add_comm]
      cases operation.receives <;> rfl
    simp only [run]
    split
    · next t hrun =>
      rw [hrun] at hd hlen
      dsimp only at hd hlen
      exact ⟨hd, by omega⟩
    · next t _ hrun =>
      rw [hrun] at ht hd hlen
      dsimp only at ht hd hlen
      obtain ⟨hd', hlen'⟩ := ih ht hd
      exact ⟨hd', by omega⟩

/-- Whatever gnutls and the listeners do: the packets that a session passes on are the data that
it has received, in that order; nothing happens between the receipt and the signal; and there is
one such packet at most for each packet that the session was given, and one for `open`. -/
theorem data_relayed (env : Environment) (fuel : ℕ) (operations : List Operation) :
    let log := (run env fuel .new operations).log
    propagated log = (received env log).map Packet.ofBytes ∧ Always (AtOnce env) log ∧
      (propagated log).length ≤ operations.countP Operation.receives := by
  have hnew : Intact env CryptoSession.new.log := ⟨rfl, always_nil⟩
  have htracks : Tracks .new := rfl
  obtain ⟨hd, hlen⟩ := run_intact env fuel operations htracks hnew
  refine ⟨hd.passedOn, hd.atOnce, ?_⟩
  simpa [CryptoSession.new, propagated] using hlen

end Wetnork.Crypto
