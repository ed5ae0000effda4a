import Wetnork.Packet

/-! `CryptoSession` on top of an arbitrary gnutls: every result and every listener is an input. -/
namespace Wetnork.Crypto

inductive State where
  | invalid
  | opening
  | «open»
  | renegotiating
  | closed
  | aborted
deriving DecidableEq, Repr

def GNUTLS_E_SUCCESS : ℤ := 0
def GNUTLS_E_WARNING_ALERT_RECEIVED : ℤ := -16
def GNUTLS_E_AGAIN : ℤ := -28
def GNUTLS_E_REHANDSHAKE : ℤ := -37
def GNUTLS_E_GOT_APPLICATION_DATA : ℤ := -38

/-- How a call ends if it does not return. `socketException` is for what `next.write` throws;
`unfinished` is not an exception of the program: the call is still running when the fuel of the
model is spent. -/
inductive Exception where
  | invalidOperation (what : String)
  | cryptoException (code alert : ℤ) (what : String)
  | socketException (number : ℤ) (what : String)
  | listener
  | unfinished
deriving DecidableEq, Repr

/-- The history of a session: results of gnutls functions, writes to `_state`, signals
(`stateChanged` with the reported old state, and the read signal), thrown `CryptoException`s. -/
inductive Event where
  | handshake (ret : ℤ)
  | recordRecv (ret : ℤ)
  | recordSend (ret : ℤ)
  | rehandshake (ret : ℤ)
  | bye (ret : ℤ)
  | assigned (state : State)
  | stateChanged (oldState : State)
  | propagate (packet : Packet)
  | cryptoException (code : ℤ)
deriving DecidableEq, Repr

/-- `sent` collects the packets handed to `next.write`. -/
structure CryptoSession where
  state : State
  currentPacket : Option Packet
  sent : List Packet
  log : List Event
deriving DecidableEq, Repr

def CryptoSession.new : CryptoSession := ⟨.invalid, none, [], []⟩

/-- `giovec_t`: the bytes at `iov_base`, which may be a null pointer if there are none. -/
abbrev Giovec := Option Bytes

def Giovec.bytes (v : Giovec) : Bytes := v.getD []

/-- What a call of `next.write` comes to: `UdpLink::write` throws if `sendto` fails. -/
inductive Written where
  | returned (accepted : Bool)
  | threw (e : Exception)
deriving DecidableEq, Repr

/-- A transport callback made by gnutls that comes back to it; `accepted` is what `next.write` has
returned. -/
inductive TransportCall where
  | pull (size : ℕ)
  | pullTimeout (ms : ℕ)
  | push (data : Bytes) (accepted : Bool)
  | vecPush (iov : List Giovec) (accepted : Bool)

/-- One run of a gnutls function that returns: its transport callbacks, then its result. What
`next.write` throws would go through gnutls, which is C, and is not among the callbacks. -/
structure Reply where
  transport : List TransportCall
  ret : ℤ

/-- `gnutls_record_recv` also fills the buffer it is given. -/
structure RecvReply extends Reply where
  buffer : Bytes

/-- What a listener may call on the session from inside a signal. -/
inductive Call where
  | «open»
  | renegotiate
  | close
  | write (packet : Packet)
deriving DecidableEq, Repr

/-- One thing a listener does; `caught` is whether it swallows the exceptions of the call. -/
inductive Reaction where
  | call (call : Call) (caught : Bool)
  | throws
deriving DecidableEq, Repr

/-- Everything outside the class. Each answer may depend on the whole history, which grows with
every question, so an environment fixes an arbitrary sequence of results and reactions. -/
structure Environment where
  handshake : List Event → Reply
  recordRecv : List Event → RecvReply
  recordSend : List Event → Packet → Reply
  rehandshake : List Event → Reply
  bye : List Event → Reply
  alertGet : List Event → ℤ
  strerror : ℤ → String
  listener : List Event → List Reaction

/-- An environment given by its results alone: no transport traffic, received data is one byte. -/
def Environment.scripted (handshake recordRecv recordSend : List Event → ℤ)
    (listener : List Event → List Reaction) : Environment where
  handshake l := ⟨[], handshake l⟩
  recordRecv l := ⟨⟨[], recordRecv l⟩, [42]⟩
  recordSend l _ := ⟨[], recordSend l⟩
  rehandshake _ := ⟨[], GNUTLS_E_SUCCESS⟩
  bye _ := ⟨[], GNUTLS_E_SUCCESS⟩
  alertGet _ := 0
  strerror _ := ""
  listener := listener

namespace CryptoSession

/-- The result and the bytes copied out; an empty slot is `-1` with `EAGAIN`. -/
def pull (s : CryptoSession) (size : ℕ) : CryptoSession × ℤ × Bytes :=
  match s.currentPacket with
  | some packet =>
    let len := if size < packet.length then size else packet.length
    ({ s with currentPacket := none }, len, packet.contents.take len)
  | none => (s, -1, [])

def pullTimeout (s : CryptoSession) (_ms : ℕ) : ℤ :=
  match s.currentPacket with
  | some packet => packet.length
  | none => 0

/-- How a push function ends: with a result for gnutls, with an exception of `next.write` or of
`new`, or with memory deleted that belongs to gnutls. -/
inductive PushEnd where
  | returned (ret : ℤ)
  | threw (e : Exception)
  | badAlloc
  | deleted
deriving DecidableEq, Repr

/-- The `bool` of `next.write` is passed on as the byte count. -/
def pushEnd : Written → PushEnd
  | .returned accepted => .returned (if accepted then 1 else 0)
  | .threw e => .threw e

def push (s : CryptoSession) (data : Bytes) (next : Written) : CryptoSession × PushEnd :=
  if data.length < 2 ^ 63 then
    ({ s with sent := s.sent ++ [Packet.ofBytes data] }, pushEnd next)
  else
    (s, .badAlloc)

/-- The packets made for the vectors capture what these point to, so that it is deleted with
them at the end, whether or not `next.write` has got its packet. -/
def vecPush (s : CryptoSession) (iov : List Giovec) (next : Written) : CryptoSession × PushEnd :=
  let ended := if iov.all Option.isNone then pushEnd next else .deleted
  match Stream.gather (iov.map fun v => Packet.ofBytes v.bytes) with
  | some packet => ({ s with sent := s.sent ++ [packet] }, ended)
  | none => (s, ended)

def transport (s : CryptoSession) : TransportCall → CryptoSession
  | .pull size => (s.pull size).1
  | .pullTimeout _ => s
  | .push data accepted => (s.push data (.returned accepted)).1
  | .vecPush iov accepted => (s.vecPush iov (.returned accepted)).1

end CryptoSession

abbrev CryptoM := ExceptT Exception (StateM CryptoSession)

def record (event : Event) : CryptoM Unit := modify fun s => { s with log := s.log ++ [event] }

/-- A call of a gnutls function. -/
def gnutls (reply : Reply) (event : ℤ → Event) : CryptoM ℤ := do
  modify fun s => reply.transport.foldl CryptoSession.transport s
  record (event reply.ret)
  return reply.ret

section Methods

variable (env : Environment) (signal : CryptoM Unit)

def gnutlsHandshake : CryptoM ℤ := do gnutls (env.handshake (← get).log) .handshake

def gnutlsRecordRecv : CryptoM (ℤ × Bytes) := do
  let reply := env.recordRecv (← get).log
  let ret ← gnutls reply.toReply .recordRecv
  return (ret, reply.buffer)

def gnutlsRecordSend (packet : Packet) : CryptoM ℤ := do
  gnutls (env.recordSend (← get).log packet) .recordSend

def gnutlsRehandshake : CryptoM ℤ := do gnutls (env.rehandshake (← get).log) .rehandshake

def gnutlsBye : CryptoM ℤ := do gnutls (env.bye (← get).log) .bye

/-- `signal` runs the listeners of whatever the history ends with. -/
def setState (state : State) : CryptoM Unit := do
  let oldState := (← get).state
  modify fun s => { s with state := state, log := s.log ++ [Event.assigned state] }
  record (.stateChanged oldState)
  signal

/-- Writes `_state` directly, without the signal. -/
def fail (code : ℤ) : CryptoM Unit := do
  modify fun s => { s with state := .aborted, log := s.log ++ [Event.assigned .aborted] }
  let alert := env.alertGet (← get).log
  record (.cryptoException code)
  throw (.cryptoException code alert (env.strerror code))

def propagate (packet : Packet) : CryptoM Unit := do
  record (.propagate packet)
  signal

mutual

def handleHandshake : ℕ → CryptoM Unit
  | 0 => throw .unfinished
  | fuel + 1 => do
    let ret ← gnutlsHandshake env
    if ret = GNUTLS_E_GOT_APPLICATION_DATA then
      handleData fuel
    else if ret = GNUTLS_E_AGAIN then
      pure ()
    else if ret = GNUTLS_E_SUCCESS then
      setState signal State.open
    else
      fail env ret

def handleData : ℕ → CryptoM Unit
  | 0 => throw .unfinished
  | fuel + 1 => do
    let (ret, buffer) ← gnutlsRecordRecv env
    if ret < 0 then
      if ret = GNUTLS_E_REHANDSHAKE then
        setState signal .renegotiating
        handleHandshake fuel
      else
        fail env ret
    else if ret = 0 then
      if (← get).state ≠ .closed then
        let _ ← gnutlsBye env
      setState signal .closed
    else
      propagate signal (Packet.ofBytes (buffer.take ret.toNat))

end

def handlePacket (fuel : ℕ) : CryptoM Unit := do
  let state := (← get).state
  if state = .opening ∨ state = .renegotiating then
    handleHandshake env signal fuel
  else if state = State.open then
    handleData env signal fuel
  else
    throw (.invalidOperation "Session not ready")

def CryptoSession.open (fuel : ℕ) : CryptoM Unit := do
  if (← get).state ≠ .invalid then
    throw (.invalidOperation "Session not ready")
  setState signal .opening
  handleHandshake env signal fuel

def CryptoSession.renegotiate : CryptoM Unit := do
  if (← get).state ≠ State.open then
    throw (.invalidOperation "Session not ready")
  let _ ← gnutlsRehandshake env
  setState signal .renegotiating

def CryptoSession.close : CryptoM Unit := do
  let state := (← get).state
  if state = .invalid ∨ state = .closed ∨ state = .aborted then
    throw (.invalidOperation "Session not ready")
  let _ ← gnutlsBye env
  setState signal .closed

def CryptoSession.readPacket (fuel : ℕ) (packet : Packet) : CryptoM Unit := do
  modify fun s => { s with currentPacket := some packet }
  handlePacket env signal fuel

def CryptoSession.write (packet : Packet) : CryptoM Bool := do
  if (← get).state ≠ State.open then
    throw (.invalidOperation "Session not ready")
  let result ← gnutlsRecordSend env packet
  if result = GNUTLS_E_AGAIN then
    return false
  else if result < 0 then
    record (.cryptoException result)
    throw (.cryptoException result 0 (env.strerror result))
  else
    return true

def perform (fuel : ℕ) : Call → CryptoM Unit
  | Call.open => CryptoSession.open env signal fuel
  | .renegotiate => CryptoSession.renegotiate env signal
  | .close => CryptoSession.close env signal
  | .write packet => do let _ ← CryptoSession.write env packet

end Methods

/-- The listeners of one signal, one reaction after another. -/
def react (perform : Call → CryptoM Unit) : List Reaction → CryptoM Unit
  | [] => pure ()
  | .throws :: _ => throw .listener
  | .call call caught :: reactions => do
    if caught then
      tryCatch (perform call) fun e => if e = .unfinished then throw e else pure ()
    else
      perform call
    react perform reactions

/-- Listeners may raise further signals by what they call, to any depth. -/
def listeners (env : Environment) : ℕ → CryptoM Unit
  | 0 => throw .unfinished
  | fuel + 1 => do react (perform env (listeners env fuel) fuel) (env.listener (← get).log)

/-- What happens to a session from outside a signal. -/
inductive Operation where
  | call (call : Call)
  | readPacket (packet : Packet)
deriving DecidableEq, Repr

def operate (env : Environment) (fuel : ℕ) : Operation → CryptoM Unit
  | .call call => perform env (listeners env fuel) fuel call
  | .readPacket packet => CryptoSession.readPacket env (listeners env fuel) fuel packet

/-- Operations in sequence, whether or not they throw; one that does not return is the last. -/
def run (env : Environment) (fuel : ℕ) (s : CryptoSession) : List Operation → CryptoSession
  | [] => s
  | operation :: operations =>
    match (operate env fuel operation).run s with
    | (.error .unfinished, t) => t
    | (_, t) => run env fuel t operations

end Wetnork.Crypto
