import PpsDht.ReadQuorum
import PpsDht.WriteQuorum
import PpsDht.Server

/-! The whole store: servers in their receive loops, one client call at a time, and a
network between them that may lose, delay and reorder datagrams but neither duplicates
nor forges them. Each call has a socket of its own. Allocations succeed: a server without
memory sends no answer, as if the request had been lost. -/
namespace PpsDht

open CLib Loop

inductive Operation where
  | put (key value : CString)
  | get (key : CString)
  deriving DecidableEq

namespace Operation

def key : Operation → CString
  | put key _ => key
  | get key => key

def message : Operation → List UInt8
  | put key value => putMessage key value
  | get key => getMessage key

/-- The call is not refused for the length of its key or value. -/
def fits : Operation → Bool
  | put key value => decide (key.strlen ≤ maxMsgElemSize ∧ value.strlen ≤ maxMsgElemSize)
  | get key => decide (key.strlen ≤ maxMsgElemSize)

def needed (args : Args) : Operation → UInt64
  | put _ _ => args.W
  | get _ => args.R

end Operation

/-- A request on its way to a server, or handled by it. -/
structure Packet where
  socket : Nat
  server : SockAddr
  operation : Operation
  deriving DecidableEq

/-- An answer on its way to a client's socket. -/
structure Reply where
  socket : Nat
  server : SockAddr
  payload : List UInt8
  deriving DecidableEq

/-- A call in its reply loop, with what it has received so far. -/
structure Pending where
  socket : Nat
  operation : Operation
  servers : NodeList
  inbox : Inbox

structure Event where
  operation : Operation
  error : ErrorCode
  value : Option CString
  deriving DecidableEq

/-- Handled requests and events are listed newest first. -/
structure Store where
  tables : SockAddr → Htable
  requests : List Packet
  replies : List Reply
  handled : List Packet
  sockets : Nat
  running : Option Pending
  history : List Event

def Store.initial : Store where
  tables _ := Htable.empty htableSize
  requests := []
  replies := []
  handled := []
  sockets := 0
  running := none
  history := []

inductive Action where
  | call (operation : Operation) (fuel : Nat) (sends : List Bool)
  | refuse (operation : Operation) (error : ErrorCode)
  | deliver (packet : Packet)
  | loseRequest (packet : Packet)
  | loseReply (reply : Reply)
  | receive (reply : Reply)
  | timeout
  | finish

/-- What the call returns when nothing more is received. -/
def Pending.result (args : Args) (pending : Pending) : Event :=
  let rounds := pending.servers.length
  match pending.operation with
  | .put _ _ => ⟨pending.operation, (putLoop pending.servers args.W rounds 0 pending.inbox).1, none⟩
  | .get _ =>
    let result := getLoop pending.servers args.R rounds (Htable.empty rounds) pending.inbox []
    ⟨pending.operation, result.1, result.2.1⟩

section Step

variable (sha1 : List UInt8 → Digest) (client : Client)

/-- A call finds its servers and sends them its request, up to the first `sendto` that
fails; only a call that reached all of them goes on to wait. -/
def startCall (s : Store) (operation : Operation) (servers : NodeList) (sends : List Bool) : Store :=
  if servers.length < (operation.needed client.args).toNat then
    { s with history := ⟨operation, .badParameter, none⟩ :: s.history }
  else
    match sendMessages operation.message servers sends with
    | (error, sent) =>
      let sent := sent.map fun datagram => (⟨s.sockets, datagram.peer, operation⟩ : Packet)
      if error = .none then
        { s with
          sockets := s.sockets + 1
          requests := s.requests ++ sent
          running := some ⟨s.sockets, operation, servers, []⟩ }
      else
        { s with
          sockets := s.sockets + 1
          requests := s.requests ++ sent
          history := ⟨operation, error, none⟩ :: s.history }

def handle (s : Store) (packet : Packet) : Option Store :=
  match serve 0 (s.tables packet.server) packet.operation.message [] with
  | .done (table, sent) =>
    some { s with
      tables := Function.update s.tables packet.server table
      requests := s.requests.erase packet
      replies := s.replies ++ sent.map fun payload => ⟨packet.socket, packet.server, payload⟩
      handled := packet :: s.handled }
  | _ => none

/-- One step of the store; none when the action is not possible. A call may be refused
before it sends anything, and may time out whenever it waits. -/
def next (s : Store) : Action → Option Store
  | .call operation fuel sends =>
    match s.running, operation.fits,
      ringGetNodesForKey sha1 client.server client.args.N.toNat operation.key fuel [] with
    | none, true, .done (some servers, _) => some (startCall client s operation servers sends)
    | _, _, _ => none
  | .refuse operation error =>
    match s.running with
    | some _ => none
    | none =>
      if error = .none then none
      else some { s with history := ⟨operation, error, none⟩ :: s.history }
  | .deliver packet => if packet ∈ s.requests then handle s packet else none
  | .loseRequest packet => some { s with requests := s.requests.erase packet }
  | .loseReply reply => some { s with replies := s.replies.erase reply }
  | .receive reply =>
    match s.running with
    | none => none
    | some pending =>
      if reply ∈ s.replies ∧ reply.socket = pending.socket then
        some { s with
          replies := s.replies.erase reply
          running := some { pending with
            inbox := pending.inbox ++ [some ⟨reply.server, reply.payload⟩] } }
      else none
  | .timeout =>
    match s.running with
    | none => none
    | some pending => some { s with running := some { pending with inbox := pending.inbox ++ [none] } }
  | .finish =>
    match s.running with
    | none => none
    | some pending =>
      some { s with running := none, history := pending.result client.args :: s.history }

def runActions (s : Store) : List Action → Option Store
  | [] => some s
  | action :: rest => (next sha1 client s action).bind fun s => runActions s rest

end Step

/-- The last put of a key, with the error it returned. -/
def lastPut (key : CString) : List Event → Option (ErrorCode × CString)
  | [] => none
  | event :: older =>
    match event.operation with
    | .put written value => if written = key then some (event.error, value) else lastPut key older
    | .get _ => lastPut key older

/-- Every successful get of a key whose last put had succeeded returned that put's value. -/
def Consistent : List Event → Prop
  | [] => True
  | event :: older =>
    Consistent older ∧ ∀ key value, event.operation = .get key → event.error = .none →
      lastPut key older = some (.none, value) → event.value = some value

def Action.operation : Action → Option Operation
  | .call operation _ _ => some operation
  | .refuse operation _ => some operation
  | _ => none

/-- A key that is not empty, and a key and value of accepted length. -/
def Operation.Allowed : Operation → Prop
  | .put key value =>
    key ≠ CString.empty ∧ key.strlen ≤ maxMsgElemSize ∧ value.strlen ≤ maxMsgElemSize
  | .get key => key ≠ CString.empty ∧ key.strlen ≤ maxMsgElemSize

instance : DecidablePred Operation.Allowed
  | .put _ _ => inferInstanceAs (Decidable (_ ∧ _ ∧ _))
  | .get _ => inferInstanceAs (Decidable (_ ∧ _))

/-- `R` and `W` are quorums among `N` servers that always meet. -/
structure Quorums (args : Args) : Prop where
  readSome : 1 ≤ args.R.toNat
  writeSome : 1 ≤ args.W.toNat
  readWithin : args.R.toNat ≤ args.N.toNat
  writeWithin : args.W.toNat ≤ args.N.toNat
  meet : args.N.toNat < args.R.toNat + args.W.toNat

/-- What a waiting call returns is what `network_get` returns on the same inbox. -/
theorem result_get {sha1 : List UInt8 → Digest} {client : Client} {key : CString} {fuel : Nat}
    {env : Env} {servers : NodeList} (socket : Nat) (inbox : Inbox)
    (contacted : Contacted sha1 client client.args.R key fuel env servers) :
    ∃ sent rest, networkGet sha1 client key fuel env inbox =
      .done ((Pending.result client.args ⟨socket, .get key, servers, inbox⟩).error,
        (Pending.result client.args ⟨socket, .get key, servers, inbox⟩).value, sent, rest) :=
  ⟨_, _, networkGet_contacted inbox contacted⟩

theorem result_put {sha1 : List UInt8 → Digest} {client : Client} {key value : CString} {fuel : Nat}
    {env : Env} {servers : NodeList} (socket : Nat) (inbox : Inbox)
    (fits : value.strlen ≤ maxMsgElemSize)
    (contacted : Contacted sha1 client client.args.W key fuel env servers) :
    ∃ sent rest, networkPut sha1 client key value fuel env inbox =
      .done ((Pending.result client.args ⟨socket, .put key value, servers, inbox⟩).error, sent,
        rest) :=
  ⟨_, _, networkPut_contacted inbox fits contacted⟩

/-! A write datagram that arrives late. -/

def oneServer : Client := ⟨CString.empty, [⟨Digest.ofFirst 7, ⟨1, 0⟩, 0⟩], ⟨1, 1, 1⟩⟩

def someKey : CString := CString.ofMemory [107]

def valueOne : CString := CString.ofMemory [49]

def valueTwo : CString := CString.ofMemory [50]

def putOne : Operation := .put someKey valueOne

def putTwo : Operation := .put someKey valueTwo

def getKey : Operation := .get someKey

end PpsDht
