import Wetnork.Library.Runs
import Wetnork.Crypto.Session

/-! `CryptoContext`, the sessions it opens, and the callback that is to check their peers. -/
namespace Wetnork.Crypto.Context

/-- How the callback ends if it does not return. -/
inductive Fault where
  | nullPointer
  | danglingPointer
  | invalidArgument (what : String)
deriving DecidableEq, Repr

/-- `char` is a signed byte. -/
@[ext] structure KeyFingerprint where
  data : List Int8
  length_pos : 1 ≤ data.length
  length_le : data.length ≤ 128
deriving DecidableEq, Repr

namespace KeyFingerprint

/-- The constructor, given the chars between `data` and `data + length`, or a null pointer. -/
def ofData : Option (List Int8) → Except Fault KeyFingerprint
  | none => .error (.invalidArgument "data")
  | some data =>
    if h : data.length < 1 ∨ 128 < data.length then
      .error (.invalidArgument "length")
    else
      .ok ⟨data, by omega, by omega⟩

/-- `operator<`. -/
def less (a b : KeyFingerprint) : Bool := decide (a.data < b.data)

/-- The keys of a `std::set` are equivalent if neither is the smaller one. -/
def equivalent (a b : KeyFingerprint) : Bool := !a.less b && !b.less a

/-- `std::set::count`. -/
def count (peers : Finset KeyFingerprint) (key : KeyFingerprint) : ℕ :=
  (peers.filter fun peer => equivalent peer key).card

theorem equivalent_iff {a b : KeyFingerprint} : equivalent a b ↔ a = b := by
  constructor
  · intro h
    simp only [equivalent, less, Bool.and_eq_true, Bool.not_eq_true', decide_eq_false_iff_not] at h
    exact KeyFingerprint.ext (List.le_antisymm h.2 h.1)
  · rintro rfl
    simp [equivalent, less]

theorem count_ne_zero_iff {peers : Finset KeyFingerprint} {key : KeyFingerprint} :
    count peers key ≠ 0 ↔ key ∈ peers := by
  simp only [count, ne_eq, Finset.card_eq_zero, ← Finset.nonempty_iff_ne_empty]
  constructor
  · rintro ⟨peer, hp⟩
    obtain ⟨hm, he⟩ := Finset.mem_filter.mp hp
    exact equivalent_iff.mp he ▸ hm
  · intro hm
    exact ⟨key, Finset.mem_filter.mpr ⟨hm, equivalent_iff.mpr rfl⟩⟩

end KeyFingerprint

structure CryptoContext where
  permissiblePeers : Finset KeyFingerprint
deriving DecidableEq

/-- What gnutls keeps for a session; a pointer is the address of a session object, `none` null. -/
structure GnutlsSession where
  server : Bool
  credentials : Option ℕ
  requireCertificate : Bool
  sessionPtr : Option ℕ
  transportPtr : Option ℕ
deriving DecidableEq, Repr

/-- The part of a `CryptoSession` object the callback goes through. -/
structure SessionObject where
  session : GnutlsSession
  context : ℕ
deriving DecidableEq, Repr

/-- The objects of the program; the address of an object is its index. -/
structure Process where
  contexts : List CryptoContext
  sessions : List SessionObject
deriving DecidableEq

def gnutlsInit (server : Bool) : GnutlsSession := ⟨server, none, false, none, none⟩

def gnutlsCredentialsSet (session : GnutlsSession) (context : ℕ) : GnutlsSession :=
  { session with credentials := some context }

def gnutlsCertificateServerSetRequest (session : GnutlsSession) : GnutlsSession :=
  { session with requireCertificate := true }

def gnutlsTransportSetPtr (session : GnutlsSession) (address : ℕ) : GnutlsSession :=
  { session with transportPtr := some address }

/-- The constructor of `CryptoSession` registers `this` as the transport pointer. -/
def SessionObject.new (address : ℕ) (session : GnutlsSession) (context : ℕ) : SessionObject :=
  ⟨gnutlsTransportSetPtr session address, context⟩

namespace Process

def new : Process := ⟨[], []⟩

def createContext (p : Process) : Process := { p with contexts := p.contexts ++ [⟨∅⟩] }

def permissiblePeers (p : Process) (context : ℕ) (peers : Finset KeyFingerprint) : Process :=
  { p with contexts := p.contexts.modify context fun c => { c with permissiblePeers := peers } }

/-- `init` and `credentials` are the results of the two gnutls calls. -/
def openSession (strerror : ℤ → String) (p : Process) (context : ℕ) (server : Bool)
    (init credentials : ℤ) : Except Exception Process := do
  if init < 0 then throw (.cryptoException init 0 (strerror init))
  let session := gnutlsInit server
  if credentials < 0 then throw (.cryptoException credentials 0 (strerror credentials))
  let session := gnutlsCredentialsSet session context
  let session := if server then gnutlsCertificateServerSetRequest session else session
  return { p with sessions := p.sessions ++ [SessionObject.new p.sessions.length session context] }

end Process

inductive Action where
  | createContext
  | permissiblePeers (context : ℕ) (peers : Finset KeyFingerprint)
  | openSession (context : ℕ) (server : Bool) (init credentials : ℤ)

/-- A context that does not exist cannot be used; an exception opens no session. -/
def step (strerror : ℤ → String) (p : Process) : Action → Process
  | .createContext => p.createContext
  | .permissiblePeers context peers => p.permissiblePeers context peers
  | .openSession context server init credentials =>
    if context < p.contexts.length then
      match p.openSession strerror context server init credentials with
      | .ok p => p
      | .error _ => p
    else
      p

inductive CertificateType where
  | unknown
  | x509
  | openpgp
  | raw
deriving DecidableEq, Repr

/-- What gnutls answers about the peer: the type of its certificate, the certificate if there is
one, and the results of the functions of the OpenPGP module, with the chars written to `fpr`. -/
structure Peer where
  certificateType : CertificateType
  peerCert : Option Bytes
  crtInit : ℤ
  crtImport : Bytes → ℤ
  crtGetFingerprint : Bytes → ℤ × List Int8

/-- `reinterpret_cast<CryptoSession*>(gnutls_session_get_ptr(session))->context` -/
def resolve (p : Process) (session : GnutlsSession) : Except Fault ℕ :=
  match session.sessionPtr with
  | none => .error .nullPointer
  | some address =>
    match p.sessions[address]? with
    | none => .error .danglingPointer
    | some object => .ok object.context

/-- The lookup in `context._permissiblePeers`. -/
def lookup (p : Process) (context : ℕ) (fpr : List Int8) : Except Fault ℤ := do
  let key ← KeyFingerprint.ofData (some fpr)
  match p.contexts[context]? with
  | none => .error .danglingPointer
  | some c => return if KeyFingerprint.count c.permissiblePeers key ≠ 0 then 0 else 1

def gnutlsCertificateVerify (p : Process) (session : GnutlsSession) (peer : Peer) :
    Except Fault ℤ := do
  let context ← resolve p session
  if peer.certificateType ≠ .openpgp then
    return 1
  match peer.peerCert with
  | none => return 1
  | some peerCert =>
    if peer.crtInit ≠ 0 then
      return 1
    if peer.crtImport peerCert ≠ 0 then
      return 1
    let (err, fpr) := peer.crtGetFingerprint peerCert
    if err ≠ 0 then
      return 1
    lookup p context fpr

variable {strerror : ℤ → String} {p : Process} {object : SessionObject} {peer : Peer}

/-- The peer has an OpenPGP certificate that gnutls can read, with a fingerprint that the context
permits at present. -/
def Acceptable (p : Process) (context : ℕ) (peer : Peer) : Prop :=
  peer.certificateType = .openpgp ∧ peer.crtInit = 0 ∧
  ∃ peerCert, peer.peerCert = some peerCert ∧ peer.crtImport peerCert = 0 ∧
    (peer.crtGetFingerprint peerCert).1 = 0 ∧
    ∃ c, p.contexts[context]? = some c ∧
      ∃ key ∈ c.permissiblePeers, key.data = (peer.crtGetFingerprint peerCert).2

/-- The callback finds the context of the session and accepts exactly the acceptable peers. -/
structure Authenticates (p : Process) (object : SessionObject) (peer : Peer) : Prop where
  resolves : resolve p object.session = .ok object.context
  accepts : gnutlsCertificateVerify p object.session peer = .ok 0 ↔
    Acceptable p object.context peer
  rejects : ¬ Acceptable p object.context peer →
    ∃ result, gnutlsCertificateVerify p object.session peer = .ok result ∧ result ≠ 0

/-- `gnutls_session_set_ptr` is never called. -/
def Unlinked (p : Process) : Prop := ∀ object ∈ p.sessions, object.session.sessionPtr = none

/-- A session that has just been opened. -/
structure Opened (p : Process) (context : ℕ) (object : SessionObject) : Prop where
  context : object.context = context
  sessionPtr : object.session.sessionPtr = none
  transportPtr : object.session.transportPtr = some p.sessions.length

theorem openSession_ok {q : Process} {context : ℕ} {server : Bool} {init credentials : ℤ}
    (h : p.openSession strerror context server init credentials = .ok q) :
    ∃ object, q = { p with sessions := p.sessions ++ [object] } ∧ Opened p context object := by
  unfold Process.openSession at h
  by_cases hi : init < 0
  · simp [hi] at h
    cases h
  · by_cases hc : credentials < 0
    · simp [hi, hc] at h
      cases h
    · simp only [hi, hc, if_false] at h
      cases h
      refine ⟨_, rfl, rfl, ?_, ?_⟩ <;> cases server <;> rfl

/-- A step keeps the sessions, or opens one more for an existing context. -/
theorem step_cases (p : Process) (a : Action) :
    ((step strerror p a).sessions = p.sessions ∧
      p.contexts.length ≤ (step strerror p a).contexts.length) ∨
    ∃ object context, context < p.contexts.length ∧ Opened p context object ∧
      step strerror p a = { p with sessions := p.sessions ++ [object] } := by
  cases a with
  | createContext => exact Or.inl ⟨rfl, by simp [step, Process.createContext]⟩
  | permissiblePeers context peers =>
    exact Or.inl ⟨rfl, by simp [step, Process.permissiblePeers]⟩
  | openSession context server init credentials =>
    by_cases hc : context < p.contexts.length
    · cases hq : p.openSession strerror context server init credentials with
      | error e => exact Or.inl (by simp [step, hc, hq])
      | ok q =>
        obtain ⟨object, rfl, ho⟩ := openSession_ok hq
        exact Or.inr ⟨object, context, hc, ho, by simp [step, hc, hq]⟩
    · exact Or.inl (by simp [step, hc])

theorem unlinked_step (p : Process) (a : Action) (h : Unlinked p) :
    Unlinked (step strerror p a) := by
  rcases step_cases p a with ⟨hs, _⟩ | ⟨object, context, _, ho, hs⟩
  · rwa [Unlinked, hs]
  · rw [hs]
    intro o hm
    rcases List.mem_append.mp hm with hm | hm
    · exact h o hm
    · exact List.mem_singleton.mp hm ▸ ho.sessionPtr

theorem unlinked_run (actions : List Action) :
    Unlinked (Runs.run (step strerror) .new actions) :=
  Runs.invariant unlinked_step (by simp [Unlinked, Process.new])

/-- Whatever the contexts have been told to permit, the callback for a session they opened
dereferences a null pointer before it looks at the peer. -/
theorem certificate_verify_faults (strerror : ℤ → String) (actions : List Action)
    (object : SessionObject) (h : object ∈ (Runs.run (step strerror) .new actions).sessions)
    (peer : Peer) :
    gnutlsCertificateVerify (Runs.run (step strerror) .new actions) object.session peer =
      .error .nullPointer ∧
    ¬ Authenticates (Runs.run (step strerror) .new actions) object peer := by
  have hr : resolve (Runs.run (step strerror) .new actions) object.session =
      .error .nullPointer := by
    rw [resolve, unlinked_run actions object h]
  refine ⟨by rw [gnutlsCertificateVerify, hr]; rfl, fun ha => ?_⟩
  have hres := ha.resolves
  rw [hr] at hres
  cases hres

/-- Both a client and a server session, before and after the permissible peers are set. -/
theorem certificate_verify_faults_server :
    let actions : List Action := [.createContext, .openSession 0 false 0 0,
      .permissiblePeers 0 {⟨[1, 2, 3], by decide, by decide⟩}, .openSession 0 true 0 0]
    let p := Runs.run (step fun _ => "") .new actions
    let object : SessionObject := ⟨⟨true, some 0, true, none, some 1⟩, 0⟩
    let peer : Peer := ⟨.x509, none, 0, fun _ => 0, fun _ => (0, [1])⟩
    object ∈ p.sessions ∧ ¬ Authenticates p object peer := by
  intro actions p object peer
  have hm : object ∈ p.sessions := by
    rw [show p.sessions = [⟨⟨false, some 0, false, none, some 0⟩, 0⟩, object] from rfl]
    exact List.mem_cons_of_mem _ List.mem_cons_self
  exact ⟨hm, (certificate_verify_faults _ actions object hm peer).2⟩

/-- A peer with a permitted fingerprint is not accepted. -/
theorem permitted_not_accepted :
    let key : KeyFingerprint := ⟨[1, 2, 3], by decide, by decide⟩
    let p := Runs.run (step fun _ => "") .new
      [.createContext, .permissiblePeers 0 {key}, .openSession 0 false 0 0]
    let object : SessionObject := ⟨⟨false, some 0, false, none, some 0⟩, 0⟩
    let peer : Peer := ⟨.openpgp, some [42], 0, fun _ => 0, fun _ => (0, [1, 2, 3])⟩
    p.sessions = [object] ∧ Acceptable p 0 peer ∧
      gnutlsCertificateVerify p object.session peer = .error .nullPointer ∧
      ¬ Authenticates p object peer := by
  intro key p object peer
  have hv : gnutlsCertificateVerify p object.session peer = .error .nullPointer := rfl
  have hk : Acceptable p 0 peer :=
    ⟨rfl, rfl, [42], rfl, rfl, rfl, ⟨{key}⟩, rfl, key, Finset.mem_singleton_self key, rfl⟩
  refine ⟨rfl, hk, hv, fun h => ?_⟩
  have ha := h.accepts.mpr hk
  rw [hv] at ha
  cases ha

/-- Sessions know their own address as transport pointer, and belong to an existing context. -/
def Registered (p : Process) : Prop :=
  ∀ (address : ℕ) (object : SessionObject), p.sessions[address]? = some object →
    object.session.transportPtr = some address ∧ object.context < p.contexts.length

theorem registered_step (p : Process) (a : Action) (h : Registered p) :
    Registered (step strerror p a) := by
  rcases step_cases p a with ⟨hs, hc⟩ | ⟨object, context, hlt, ho, hs⟩
  · intro address o hm
    rw [hs] at hm
    obtain ⟨ht, hcx⟩ := h address o hm
    exact ⟨ht, hcx.trans_le hc⟩
  · rw [hs]
    intro address o hm
    rw [List.getElem?_append] at hm
    split at hm
    · exact h address o hm
    · obtain ⟨hz, he⟩ := List.getElem?_eq_some_iff.mp hm
      simp only [List.length_singleton, Nat.lt_one_iff] at hz
      obtain rfl : object = o := by simpa [hz] using he
      have ha : address = p.sessions.length := by omega
      exact ⟨ha ▸ ho.transportPtr, ho.context ▸ hlt⟩

theorem registered_run (actions : List Action) :
    Registered (Runs.run (step strerror) .new actions) :=
  Runs.invariant registered_step (by simp [Registered, Process.new])

/-- The lookup decides membership of every fingerprint that a `KeyFingerprint` can hold. -/
theorem lookup_ok {context : ℕ} {c : CryptoContext} {fpr : List Int8}
    (hc : p.contexts[context]? = some c) (hf : 1 ≤ fpr.length ∧ fpr.length ≤ 128) :
    ∃ result, lookup p context fpr = .ok result ∧
      (result = 0 ↔ ∃ key ∈ c.permissiblePeers, key.data = fpr) := by
  have hk : KeyFingerprint.ofData (some fpr) = .ok ⟨fpr, hf.1, hf.2⟩ := by
    rw [KeyFingerprint.ofData, dif_neg (by omega)]
  refine ⟨if KeyFingerprint.count c.permissiblePeers ⟨fpr, hf.1, hf.2⟩ ≠ 0 then 0 else 1, ?_, ?_⟩
  · rw [lookup, hk, hc]
    rfl
  · simp only [KeyFingerprint.count_ne_zero_iff, ite_eq_left_iff, one_ne_zero, imp_false, not_not]
    constructor
    · intro hm
      exact ⟨_, hm, rfl⟩
    · rintro ⟨key, hm, rfl⟩
      exact hm

/-- The callback, once it has found the context. -/
theorem certificateVerify_ok {session : GnutlsSession} {context : ℕ} {c : CryptoContext}
    (hr : resolve p session = .ok context) (hc : p.contexts[context]? = some c)
    (hf : ∀ cert, (peer.crtGetFingerprint cert).1 = 0 →
      1 ≤ (peer.crtGetFingerprint cert).2.length ∧
        (peer.crtGetFingerprint cert).2.length ≤ 128) :
    ∃ result, gnutlsCertificateVerify p session peer = .ok result ∧
      (result = 0 ↔ Acceptable p context peer) := by
  have hreject : ¬ Acceptable p context peer → gnutlsCertificateVerify p session peer = .ok 1 →
      ∃ result, gnutlsCertificateVerify p session peer = .ok result ∧
        (result = 0 ↔ Acceptable p context peer) :=
    fun ha hv => ⟨1, hv, by simp [ha]⟩
  by_cases ht : peer.certificateType = .openpgp
  swap
  · exact hreject (fun ha => ht ha.1) (by simp [gnutlsCertificateVerify, hr, ht])
  by_cases hi : peer.crtInit = 0
  swap
  · refine hreject (fun ha => hi ha.2.1) ?_
    cases hcert : peer.peerCert <;> simp [gnutlsCertificateVerify, hr, ht, hcert, hi]
  cases hcert : peer.peerCert with
  | none =>
    refine hreject ?_ (by simp [gnutlsCertificateVerify, hr, ht, hcert])
    rintro ⟨_, _, cert, hs, _⟩
    simp [hcert] at hs
  | some cert =>
    have hacc : Acceptable p context peer ↔ peer.crtImport cert = 0 ∧
        (peer.crtGetFingerprint cert).1 = 0 ∧
        ∃ key ∈ c.permissiblePeers, key.data = (peer.crtGetFingerprint cert).2 := by
      simp [Acceptable, ht, hi, hcert, hc]
    by_cases himp : peer.crtImport cert = 0
    swap
    · exact hreject (fun ha => himp (hacc.mp ha).1)
        (by simp [gnutlsCertificateVerify, hr, ht, hcert, hi, himp])
    by_cases hfp : (peer.crtGetFingerprint cert).1 = 0
    swap
    · exact hreject (fun ha => hfp (hacc.mp ha).2.1)
        (by simp [gnutlsCertificateVerify, hr, ht, hcert, hi, himp, hfp])
    obtain ⟨result, hl, hz⟩ := lookup_ok hc (hf cert hfp)
    refine ⟨result, ?_, ?_⟩
    · simpa [gnutlsCertificateVerify, hr, ht, hcert, hi, himp, hfp, Bind.bind, Except.bind] using hl
    · rw [hz, hacc]
      simp [himp, hfp]

/-- What is missing: each session stored in its gnutls session as well. -/
def SessionObject.link (object : SessionObject) : SessionObject :=
  { object with session := { object.session with sessionPtr := object.session.transportPtr } }

def Process.link (p : Process) : Process := { p with sessions := p.sessions.map SessionObject.link }

/-- With the pointer set, the callback decides as it should for every peer whose fingerprint, where
it can be read, is one of a length that `KeyFingerprint` allows. -/
theorem linked_authenticates (strerror : ℤ → String) (actions : List Action)
    (object : SessionObject) (h : object ∈ (Runs.run (step strerror) .new actions).link.sessions)
    (peer : Peer) (hf : ∀ cert, (peer.crtGetFingerprint cert).1 = 0 →
      1 ≤ (peer.crtGetFingerprint cert).2.length ∧
        (peer.crtGetFingerprint cert).2.length ≤ 128) :
    Authenticates (Runs.run (step strerror) .new actions).link object peer := by
  generalize hp : Runs.run (step strerror) .new actions = p at h ⊢
  have hreg : Registered p := hp ▸ registered_run actions
  obtain ⟨o, hm, rfl⟩ := List.mem_map.mp h
  obtain ⟨address, ha⟩ := List.mem_iff_getElem?.mp hm
  obtain ⟨ht, hc⟩ := hreg address o ha
  have hr : resolve p.link o.link.session = .ok o.context := by
    simp [resolve, SessionObject.link, Process.link, ht, ha]
  obtain ⟨result, hv, hz⟩ := certificateVerify_ok hr (List.getElem?_eq_getElem hc) hf
  refine ⟨hr, ?_, fun ha => ⟨result, hv, fun h0 => ha (hz.mp h0)⟩⟩
  rw [hv, Except.ok.injEq, hz]
  rfl

end Wetnork.Crypto.Context
