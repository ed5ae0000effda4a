import Wetnork.Library.Descriptors
import Wetnork.Library.Runs

/-! `CryptoContext` and what gnutls has handed out for it: credentials, and the sessions that go on
using them. -/
namespace Wetnork.Crypto.Credentials

open Runs (Along)
open Descriptors (Owned Table)

inductive Error where
  | invalidArgument (what : String)
  | cryptoException (code alert : ℤ) (what : String)
deriving DecidableEq, Repr

/-- Results of gnutls for the constructor: the credentials it allocates or an error, and that of
`gnutls_certificate_set_openpgp_key_mem2`. -/
structure Construction where
  allocate : Except ℤ ℕ
  setKey : ℤ

/-- Results of gnutls for `openSession`: the session that `gnutls_init` hands out or an error, and
that of `gnutls_credentials_set`. -/
structure Opening where
  init : Except ℤ ℕ
  credentialsSet : ℤ

/-- A `CryptoSession`: its handle, the context it refers to, and the credentials gnutls has. -/
structure Session where
  handle : ℕ
  context : ℕ
  credentials : ℕ

/-- Contexts and sessions by address. Credentials are allocated for a context; `lost` has the
handles of calls of `openSession` that threw with theirs initialised, `faults` counts the uses of
credentials that are not those of the context any more. -/
structure Process where
  contexts : ℕ → Option ℕ
  contextCount : ℕ
  credentials : Table ℕ
  sessions : ℕ → Option Session
  sessionCount : ℕ
  lost : ℕ → Option ℕ
  lostCount : ℕ
  handles : Table Unit
  faults : ℕ

/-- `numeric_limits<int>::max()` -/
def intMax : ℕ := 2 ^ 31 - 1

namespace Process

def new : Process :=
  ⟨fun _ => none, 0, .empty, fun _ => none, 0, fun _ => none, 0, .empty, 0⟩

/-- `CryptoContext::CryptoContext`, with the sizes of the two keys. -/
def create (strerror : ℤ → String) (p : Process) (pubKey privKey : ℕ) (os : Construction) :
    Process × Except Error ℕ :=
  if intMax ≤ pubKey then
    (p, .error (.invalidArgument "pubKey"))
  else if intMax ≤ privKey then
    (p, .error (.invalidArgument "privKey"))
  else
    match os.allocate with
    | .error err => (p, .error (.cryptoException err 0 (strerror err)))
    | .ok n =>
      let credentials := p.credentials.opened n p.contextCount
      if os.setKey ≠ 0 then
        ({ p with credentials := credentials.close n },
          .error (.cryptoException os.setKey 0 (strerror os.setKey)))
      else
        ({ p with
          contexts := Function.update p.contexts p.contextCount (some n)
          contextCount := p.contextCount + 1
          credentials := credentials }, .ok p.contextCount)

/-- `~CryptoContext` -/
def destroy (p : Process) (c : ℕ) : Process :=
  match p.contexts c with
  | none => p
  | some n =>
    { p with
      contexts := Function.update p.contexts c none
      credentials := p.credentials.close n }

/-- `CryptoContext::openSession`, on a context that is there. -/
def openSession (strerror : ℤ → String) (p : Process) (c n : ℕ) (os : Opening) :
    Process × Except Error ℕ :=
  match os.init with
  | .error err => (p, .error (.cryptoException err 0 (strerror err)))
  | .ok handle =>
    let p := { p with handles := p.handles.opened handle () }
    if os.credentialsSet < 0 then
      ({ p with
        lost := Function.update p.lost p.lostCount (some handle)
        lostCount := p.lostCount + 1 },
        .error (.cryptoException os.credentialsSet 0 (strerror os.credentialsSet)))
    else
      ({ p with
        sessions := Function.update p.sessions p.sessionCount (some ⟨handle, c, n⟩)
        sessionCount := p.sessionCount + 1 }, .ok p.sessionCount)

/-- A handshake of a session, for which gnutls looks at the credentials. -/
def handshake (p : Process) (i : ℕ) : Process :=
  match p.sessions i with
  | none => p
  | some s =>
    if p.credentials.file s.credentials = some s.context then p
    else { p with faults := p.faults + 1 }

/-- `~CryptoSession` -/
def close (p : Process) (i : ℕ) : Process :=
  match p.sessions i with
  | none => p
  | some s =>
    { p with
      sessions := Function.update p.sessions i none
      handles := p.handles.close s.handle }

/-- What has a handle of gnutls: a session, or nobody any more. -/
def holders (p : Process) : ℕ ⊕ ℕ → Option ℕ :=
  Sum.elim (Option.map Session.handle ∘ p.sessions) p.lost

end Process

inductive Action where
  | create (pubKey privKey : ℕ) (os : Construction)
  | destroy (c : ℕ)
  | openSession (c : ℕ) (os : Opening)
  | handshake (i : ℕ)
  | close (i : ℕ)

def step (strerror : ℤ → String) (p : Process) : Action → Process
  | .create pubKey privKey os => (p.create strerror pubKey privKey os).1
  | .destroy c => p.destroy c
  | .openSession c os =>
    match p.contexts c with
    | none => p
    | some n => (p.openSession strerror c n os).1
  | .handshake i => p.handshake i
  | .close i => p.close i

/-- gnutls hands out what is not in use. -/
def Possible (p : Process) : Action → Prop
  | .create _ _ os => ∀ n, os.allocate = .ok n → p.credentials.file n = none
  | .openSession _ os => ∀ handle, os.init = .ok handle → p.handles.file handle = none
  | _ => True

/-- The context of a session that makes a handshake is still there. -/
def Outlived (p : Process) : Action → Prop
  | .handshake i => ∀ s, p.sessions i = some s → p.contexts s.context ≠ none
  | _ => True

/-- Credentials belong to live contexts one to one, handles to live sessions or to failed calls, and
sessions use the credentials of their contexts as long as these live. -/
structure Resources (p : Process) : Prop where
  credentials : Owned p.credentials p.contexts
  tagged : ∀ c n, p.contexts c = some n → p.credentials.file n = some c
  handles : Owned p.handles p.holders
  given : ∀ i s n, p.sessions i = some s → p.contexts s.context = some n → s.credentials = n
  known : ∀ i s, p.sessions i = some s → s.context < p.contextCount
  contextsUnused : ∀ c, p.contextCount ≤ c → p.contexts c = none
  sessionsUnused : ∀ i, p.sessionCount ≤ i → p.sessions i = none
  lostUnused : ∀ j, p.lostCount ≤ j → p.lost j = none

variable {strerror : ℤ → String} {p : Process} {a : Action}

theorem resources_new : Resources .new where
  credentials := Descriptors.owned_empty
  tagged := nofun
  handles := by
    have hnone : Process.new.holders = fun _ => none := by
      funext k
      cases k <;> rfl
    rw [hnone]
    exact Descriptors.owned_empty
  given := nofun
  known := nofun
  contextsUnused := fun _ _ => rfl
  sessionsUnused := fun _ _ => rfl
  lostUnused := fun _ _ => rfl

theorem resources_create (h : Resources p) {pubKey privKey : ℕ} {os : Construction}
    (hp : Possible p (.create pubKey privKey os)) :
    Resources (p.create strerror pubKey privKey os).1 := by
  unfold Process.create
  split
  · exact h
  · split
    · exact h
    · cases ha : os.allocate with
      | error err => exact h
      | ok n =>
        have hfree := hp n ha
        dsimp only
        split
        · rw [Descriptors.Table.close_opened p.contextCount hfree]
          exact h
        · have hnone := h.contextsUnused _ le_rfl
          refine { h with
            credentials := h.credentials.opened hfree hnone _
            tagged := fun c m hc => ?_
            given := fun i s m hi hm => ?_
            known := fun i s hi => Nat.lt_succ_of_lt (h.known i s hi)
            contextsUnused := fun c hc => Store.unused_placed h.contextsUnused _ hc }
          · by_cases hcount : c = p.contextCount
            · subst hcount
              obtain rfl : n = m := by simpa using hc
              simp [Table.opened]
            · dsimp only at hc
              rw [Function.update_of_ne hcount] at hc
              have hfile := h.tagged c m hc
              have hne : m ≠ n := by
                rintro rfl
                simp [hfree] at hfile
              simpa [Table.opened, hne] using hfile
          · have hlt := h.known i s hi
            dsimp only at hm
            rw [Function.update_of_ne (by omega)] at hm
            exact h.given i s m hi hm

theorem resources_destroy (h : Resources p) (c : ℕ) : Resources (p.destroy c) := by
  unfold Process.destroy
  cases hc : p.contexts c with
  | none => exact h
  | some n =>
    refine { h with
      credentials := h.credentials.closed hc
      tagged := fun d m hd => ?_
      given := fun i s m hi hm => ?_
      contextsUnused := fun d hd =>
        Store.unused_written h.contextsUnused (Store.lt_of_unused h.contextsUnused hc) none hd }
    · obtain ⟨hdc, hold⟩ := Store.update_none_iff.mp hd
      have hne : m ≠ n := by
        rintro rfl
        exact hdc (h.credentials.unique d c m hold hc)
      have hfile := h.tagged c n hc
      simpa [Table.close, hfile, hne] using h.tagged d m hold
    · exact h.given i s m hi (Store.update_none_iff.mp hm).2

theorem resources_openSession (h : Resources p) {c n : ℕ} {os : Opening}
    (hc : p.contexts c = some n) (hp : Possible p (.openSession c os)) :
    Resources (p.openSession strerror c n os).1 := by
  unfold Process.openSession
  cases hi : os.init with
  | error err => exact h
  | ok handle =>
    have hfree := hp handle hi
    dsimp only
    split
    · have hnone : p.holders (.inr p.lostCount) = none := h.lostUnused _ le_rfl
      have howned := h.handles.opened hfree hnone ()
      rw [Process.holders, Sum.update_elim_inr] at howned
      exact { h with
        handles := howned
        lostUnused := fun j hj => Store.unused_placed h.lostUnused _ hj }
    · have hnone : p.holders (.inl p.sessionCount) = none := by
        simp [Process.holders, h.sessionsUnused _ le_rfl]
      have howned := h.handles.opened hfree hnone ()
      rw [Process.holders, Sum.update_elim_inl] at howned
      have hlt := Store.lt_of_unused h.contextsUnused hc
      refine { h with
        handles := ?_
        given := fun i s m hi hm => ?_
        known := fun i s hi => ?_
        sessionsUnused := fun i hi => Store.unused_placed h.sessionsUnused _ hi }
      · rw [Process.holders, Function.comp_update]
        exact howned
      · rcases Store.update_some_iff.mp hi with ⟨-, rfl⟩ | ⟨-, hi⟩
        · exact Option.some.inj (hc.symm.trans hm)
        · exact h.given i s m hi hm
      · rcases Store.update_some_iff.mp hi with ⟨-, rfl⟩ | ⟨-, hi⟩
        · exact hlt
        · exact h.known i s hi

theorem resources_close (h : Resources p) (i : ℕ) : Resources (p.close i) := by
  unfold Process.close
  cases hi : p.sessions i with
  | none => exact h
  | some s =>
    have hhold : p.holders (.inl i) = some s.handle := by simp [Process.holders, hi]
    have howned := h.handles.closed hhold
    rw [Process.holders, Sum.update_elim_inl] at howned
    refine { h with
      handles := ?_
      given := fun j t m hj => h.given j t m (Store.update_none_iff.mp hj).2
      known := fun j t hj => h.known j t (Store.update_none_iff.mp hj).2
      sessionsUnused := fun j hj =>
        Store.unused_written h.sessionsUnused (Store.lt_of_unused h.sessionsUnused hi) none hj }
    rw [Process.holders, Function.comp_update]
    exact howned

theorem resources_step (h : Resources p) (hp : Possible p a) : Resources (step strerror p a) := by
  cases a with
  | create pubKey privKey os => exact resources_create h hp
  | destroy c => exact resources_destroy h c
  | openSession c os =>
    simp only [step]
    cases hc : p.contexts c with
    | none => exact h
    | some n => exact resources_openSession h hc hp
  | handshake i =>
    simp only [step, Process.handshake]
    split
    · exact h
    · split
      · exact h
      · exact { h with }
  | close i => exact resources_close h i

/-- Credentials that have been allocated again are not those of the context any more. -/
theorem used_iff (h : Resources p) : (step strerror p a).faults = p.faults ↔ Outlived p a := by
  cases a with
  | create pubKey privKey os =>
    refine iff_of_true ?_ trivial
    simp only [step, Process.create]
    split
    · rfl
    · split
      · rfl
      · split
        · rfl
        · split <;> rfl
  | destroy c =>
    refine iff_of_true ?_ trivial
    simp only [step, Process.destroy]
    split <;> rfl
  | openSession c os =>
    refine iff_of_true ?_ trivial
    simp only [step]
    split
    · rfl
    · simp only [Process.openSession]
      split
      · rfl
      · split <;> rfl
  | handshake i =>
    simp only [step, Process.handshake, Outlived]
    cases hi : p.sessions i with
    | none => simp
    | some s =>
      cases hc : p.contexts s.context with
      | some n =>
        have hfile := h.tagged _ _ hc
        rw [← h.given i s n hi hc] at hfile
        simp [hfile, hc]
      | none =>
        have hfile : p.credentials.file s.credentials ≠ some s.context := by
          intro hfile
          obtain ⟨c, hheld⟩ := h.credentials.held s.credentials (by simp [hfile])
          have hcontext := (h.tagged c _ hheld).symm.trans hfile
          rw [← Option.some.inj hcontext, hheld] at hc
          cases hc
        simp [hfile, hc]
  | close i =>
    refine iff_of_true ?_ trivial
    simp only [step, Process.close]
    split <;> rfl

/-- Over every run: credentials are freed by their one context and never twice, also when the
constructor throws; handles are freed by their one session, except those of `openSession` calls
that threw behind `gnutls_init`; and no handshake uses freed credentials exactly if every context
outlives the handshakes of its sessions. -/
theorem credentials_outlived_iff (strerror : ℤ → String) (actions : List Action)
    (hp : Along (step strerror) Possible .new actions) :
    let p := Runs.run (step strerror) .new actions
    Owned p.credentials p.contexts ∧ Owned p.handles p.holders ∧
      (Along (step strerror) (fun p a => (step strerror p a).faults = p.faults) .new actions ↔
        Along (step strerror) Outlived .new actions) := by
  intro p
  have h : Resources p := Runs.invariant_along (fun _ _ => resources_step) resources_new hp
  refine ⟨h.credentials, h.handles, ?_⟩
  exact Runs.along_iff (fun _ _ hs _ => used_iff hs) (fun _ _ hs hv _ => resources_step hs hv)
    resources_new hp

/-- A context is destroyed before its session makes a handshake, and another one is constructed
in between that gets the same credentials. -/
theorem credentials_outlived_reused :
    let strerror : ℤ → String := fun _ => ""
    let actions : List Action := [.create 10 10 ⟨.ok 1, 0⟩, .openSession 0 ⟨.ok 2, 0⟩, .destroy 0,
      .create 10 10 ⟨.ok 1, 0⟩, .handshake 0]
    ¬ Along (step strerror) (fun p a => (step strerror p a).faults = p.faults) .new actions := by
  intro strerror actions
  have hp : Along (step strerror) Possible .new actions := by
    refine ⟨?_, ?_, trivial, ?_, trivial, trivial⟩
    · rintro n ⟨⟩
      rfl
    · rintro handle ⟨⟩
      rfl
    · rintro n ⟨⟩
      rfl
  intro h
  have hout := (credentials_outlived_iff strerror actions hp).2.2.mp h
  exact hout.2.2.2.2.1 _ rfl rfl

end Wetnork.Crypto.Credentials
