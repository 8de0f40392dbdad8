import PpsDht.ForeignTraffic
import PpsDht.Store
import PpsDht.Lib.Transition

/-! The whole system at work: any number of clients and servers at once, each client with
options and a ring of its own. The network between them may lose, delay, reorder and
duplicate datagrams, and bring others from addresses that are no server; it forges none
from a server. A server may stop and start again with an empty table. Calls have sockets
of their own, and every allocation may fail. -/
namespace PpsDht.Cluster

open CLib Loop

inductive Message where
  | alive
  | dump
  | call (operation : Operation)
  deriving DecidableEq

def Message.payload : Message → List UInt8
  | .alive => listNodesMessage
  | .dump => dumpNodeMessage
  | .call operation => operation.message

structure Packet where
  socket : Nat
  server : SockAddr
  message : Message
  deriving DecidableEq

inductive Event where
  | called (operation : Operation)
  | answered (packet : Packet) (payloads : List (List UInt8))
  | restarted (server : SockAddr)
  | returned (socket : Nat) (operation : Operation) (error : ErrorCode) (value : Option CString)
  deriving DecidableEq

/-- A call that has sent its request to `servers`, with what its socket has received. -/
structure Running where
  socket : Nat
  client : Client
  operation : Operation
  fuel : Nat
  env : Env
  servers : List SockAddr
  inbox : Inbox

/-- Every packet sent so far may still arrive, any number of times. Events are listed
newest first. -/
structure State where
  tables : SockAddr → Htable
  requests : List Packet
  replies : List Reply
  sockets : Nat
  running : List Running
  history : List Event

def State.initial : State where
  tables _ := Htable.empty htableSize
  requests := []
  replies := []
  sockets := 0
  running := []
  history := []

inductive Action where
  | call (client : Client) (operation : Operation) (fuel : Nat) (env : Env)
  | probe (server : SockAddr) (message : Message)
  | deliver (packet : Packet) (fuel : Nat) (a : Alloc)
  | restart (server : SockAddr)
  | receive (reply : Reply)
  | stray (socket : Nat) (datagram : Datagram)
  | timeout (socket : Nat)
  | finish (socket : Nat)

section Step

variable (sha1 : List UInt8 → Digest)

/-- `network_get` or `network_put` on what the socket receives: the error, the value and the
datagrams sent. -/
def perform (client : Client) (operation : Operation) (fuel : Nat) (env : Env) (inbox : Inbox) :
    Outcome (ErrorCode × Option CString × List Datagram) :=
  match operation with
  | .get key => (networkGet sha1 client key fuel env inbox).bind fun (error, value, sent, _) =>
      .done (error, value, sent)
  | .put key value => (networkPut sha1 client key value fuel env inbox).bind fun (error, sent, _) =>
      .done (error, none, sent)

def State.arrive (s : State) (socket : Nat) (outcome : Option Datagram) : State :=
  { s with running := s.running.map fun call =>
      if call.socket = socket then { call with inbox := call.inbox ++ [outcome] } else call }

def State.sendFrom (s : State) (servers : List SockAddr) (message : Message) : State :=
  { s with
    requests := s.requests ++ servers.map fun server => ⟨s.sockets, server, message⟩
    sockets := s.sockets + 1 }

/-- One step of the system; none when the action is not possible. -/
def next (s : State) : Action → Option State
  | .call client operation fuel env =>
    match perform sha1 client operation fuel env [] with
    | .done (_, _, sent) =>
      let servers := sent.map Datagram.peer
      some { s.sendFrom servers (.call operation) with
        running := ⟨s.sockets, client, operation, fuel, env, servers, []⟩ :: s.running
        history := .called operation :: s.history }
    | _ => none
  | .probe server message =>
    match message with
    | .call _ => none
    | message => some (s.sendFrom [server] message)
  | .deliver packet fuel a =>
    if packet ∈ s.requests then
      match serve fuel (s.tables packet.server) packet.message.payload a with
      | .done (table, payloads) =>
        some { s with
          tables := Function.update s.tables packet.server table
          replies := s.replies ++
            payloads.map fun payload => ⟨packet.socket, packet.server, payload⟩
          history := .answered packet payloads :: s.history }
      | _ => none
    else none
  | .restart server =>
    some { s with
      tables := Function.update s.tables server (Htable.empty htableSize)
      history := .restarted server :: s.history }
  | .receive reply =>
    if reply ∈ s.replies then some (s.arrive reply.socket (some ⟨reply.server, reply.payload⟩))
    else none
  | .stray socket datagram =>
    if ∀ call ∈ s.running, call.socket = socket → datagram.peer ∉ call.servers then
      some (s.arrive socket (some datagram))
    else none
  | .timeout socket => some (s.arrive socket none)
  | .finish socket =>
    match s.running.find? fun call => call.socket = socket with
    | none => none
    | some call =>
      match perform sha1 call.client call.operation call.fuel call.env call.inbox with
      | .done (error, value, _) =>
        some { s with
          running := s.running.filter fun other => other.socket ≠ socket
          history := .returned socket call.operation error value :: s.history }
      | _ => none

end Step

end PpsDht.Cluster
