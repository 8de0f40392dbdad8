import PpsDht.Client
import PpsDht.Htable

/-! The two operations of a client: `network.c`. The kernel's answers are inputs: whether
a socket is made, which sends succeed, and what each `recvfrom` delivers, in order. The
reply loops run once for every contacted server and wait for one datagram in each round. -/
namespace PpsDht

open CLib Loop

/-- A datagram with the address at its other end. -/
structure Datagram where
  peer : SockAddr
  payload : List UInt8
  deriving DecidableEq

/-- What the calls of `recvfrom` deliver; `none` is a timeout, as is all past the end. -/
abbrev Inbox := List (Option Datagram)

def recvfrom : Inbox → Option Datagram × Inbox
  | [] => (none, [])
  | outcome :: rest => (outcome, rest)

structure Env where
  socket : Bool
  alloc : Alloc
  sends : List Bool

/-- Stops at the first `sendto` that fails; those past the end of the outcomes succeed. -/
def sendMessages (message : List UInt8) : NodeList → List Bool → ErrorCode × List Datagram
  | [], _ => (.none, [])
  | server :: rest, outcomes =>
    if outcomes.headD true then
      match sendMessages message rest outcomes.tail with
      | (error, sent) => (error, ⟨server.addr, message⟩ :: sent)
    else (.network, [])

/-- The bytes of the datagram that fit the buffer, with an error unless a contacted
server sent it. -/
def receiveMessage (servers : NodeList) : Option Datagram → ErrorCode × List UInt8
  | none => (.network, [])
  | some datagram =>
    let response := datagram.payload.take maxMsgElemSize
    if servers.any fun server => decide (datagram.peer = server.addr) then (.none, response)
    else (.network, response)

/-- `(size_t) c` for a signed 8-bit `char`. -/
def charToSize (c : UInt8) : UInt64 := if c < 128 then c.toUInt64 else c.toUInt64 - 256

/-- `{(char) count, '\\0'}` as a string. -/
def counter (count : UInt64) : CString := CString.ofMemory [count.toUInt8]

def incrementAndTest (t : Htable) (key : CString) (R : UInt64) (a : Alloc) :
    Bool × Htable × Alloc :=
  match getHtableValue t key a with
  | (none, a) =>
    match addHtableValue t key (counter 1) a with
    | (_, t, a) => (R == 1, t, a)
  | (some value, a) =>
    let count := charToSize (value.bytes.headD 0) + 1
    match addHtableValue t key (counter count) a with
    | (_, t, a) => (decide (R ≤ count), t, a)

/-- The reply loop of `network_get`, with the rounds left. -/
def getLoop (servers : NodeList) (R : UInt64) :
    Nat → Htable → Inbox → Alloc → ErrorCode × Option CString × Inbox
  | 0, _, inbox, _ => (.network, none, inbox)
  | rounds + 1, table, inbox, a =>
    match recvfrom inbox with
    | (outcome, inbox) =>
      match receiveMessage servers outcome with
      | (.none, response) =>
        -- a lone NUL stands for a key that was not found
        if response.length ≠ 1 ∨ response.headD 0 ≠ 0 then
          match incrementAndTest table (CString.ofMemory response) R a with
          | (true, _, _) => (.none, some (CString.ofMemory response), inbox)
          | (false, table, a) => getLoop servers R rounds table inbox a
        else getLoop servers R rounds table inbox a
      | _ => getLoop servers R rounds table inbox a

/-- The reply loop of `network_put`, with the rounds left. -/
def putLoop (servers : NodeList) (W : UInt64) : Nat → Nat → Inbox → ErrorCode × Inbox
  | 0, _, inbox => (.network, inbox)
  | rounds + 1, nbWrites, inbox =>
    match recvfrom inbox with
    | (outcome, inbox) =>
      match receiveMessage servers outcome with
      | (.none, []) =>
        if W.toNat ≤ nbWrites + 1 then (.none, inbox)
        else putLoop servers W rounds (nbWrites + 1) inbox
      | _ => putLoop servers W rounds nbWrites inbox

def getMessage (key : CString) : List UInt8 := key.bytes

/-- The key, a NUL, and the value without one. -/
def putMessage (key value : CString) : List UInt8 := key.bytes ++ 0 :: value.bytes

/-- The error, the value, the datagrams sent and what was not received. A replica list
that is NULL is dereferenced. -/
def networkGet (sha1 : List UInt8 → Digest) (client : Client) (key : CString) (fuel : Nat)
    (env : Env) (inbox : Inbox) : Outcome (ErrorCode × Option CString × List Datagram × Inbox) :=
  if maxMsgElemSize < key.strlen then .done (.badParameter, none, [], inbox)
  else if env.socket = false then .done (.network, none, [], inbox)
  else
    match malloc env.alloc with
    | (false, _) => .done (.nomem, none, [], inbox)
    | (true, a) =>
      match constructHtable client.args.N.toNat a with
      | (none, _) => .done (.nomem, none, [], inbox)
      | (some table, a) =>
        (ringGetNodesForKey sha1 client.server client.args.N.toNat key fuel a).bind fun
          | (none, _) => .fault
          | (some servers, a) =>
            if servers.length < client.args.R.toNat then .done (.badParameter, none, [], inbox)
            else
              match sendMessages (getMessage key) servers env.sends with
              | (.none, sent) =>
                match getLoop servers client.args.R servers.length table inbox a with
                | (error, value, rest) => .done (error, value, sent, rest)
              | (error, sent) => .done (error, none, sent, inbox)

def networkPut (sha1 : List UInt8 → Digest) (client : Client) (key value : CString) (fuel : Nat)
    (env : Env) (inbox : Inbox) : Outcome (ErrorCode × List Datagram × Inbox) :=
  if maxMsgElemSize < key.strlen ∨ maxMsgElemSize < value.strlen then
    .done (.badParameter, [], inbox)
  else if env.socket = false then .done (.network, [], inbox)
  else
    (ringGetNodesForKey sha1 client.server client.args.N.toNat key fuel env.alloc).bind fun
      | (none, _) => .fault
      | (some servers, _) =>
        if servers.length < client.args.W.toNat then .done (.badParameter, [], inbox)
        else
          match sendMessages (putMessage key value) servers env.sends with
          | (.none, sent) =>
            match putLoop servers client.args.W servers.length 0 inbox with
            | (error, rest) => .done (error, sent, rest)
          | (error, sent) => .done (error, sent, inbox)

/-! What a call does once it has found its servers and reached all of them. -/

/-- The call reaches its reply loop, waiting for `needed` of `servers`. -/
structure Contacted (sha1 : List UInt8 → Digest) (client : Client) (needed : UInt64)
    (key : CString) (fuel : Nat) (env : Env) (servers : NodeList) : Prop where
  short : key.strlen ≤ maxMsgElemSize
  socket : env.socket = true
  alloc : env.alloc = []
  found : ringGetNodesForKey sha1 client.server client.args.N.toNat key fuel [] =
    .done (some servers, [])
  enough : needed.toNat ≤ servers.length
  sends : env.sends = []

theorem sendMessages_nil (message : List UInt8) (servers : NodeList) :
    sendMessages message servers [] =
      (.none, servers.map fun server => ⟨server.addr, message⟩) := by
  induction servers with
  | nil => rfl
  | cons server rest ih => simp [sendMessages, ih]

theorem sendMessages_sent (message : List UInt8) (servers : NodeList) (outcomes : List Bool) :
    ∃ reached, reached <+: servers ∧ (sendMessages message servers outcomes).2 =
      reached.map fun server => ⟨server.addr, message⟩ := by
  induction servers generalizing outcomes with
  | nil => exact ⟨[], List.nil_prefix, rfl⟩
  | cons server rest ih =>
    by_cases ok : outcomes.headD true = true
    · obtain ⟨reached, front, sent⟩ := ih outcomes.tail
      refine ⟨server :: reached, List.cons_prefix_cons.mpr ⟨rfl, front⟩, ?_⟩
      simp only [sendMessages, ok, ↓reduceIte, sent, List.map_cons]
    · exact ⟨[], List.nil_prefix, by simp only [sendMessages, ok, ↓reduceIte, List.map_nil, Bool.false_eq_true]⟩

section Contacted

variable {sha1 : List UInt8 → Digest} {client : Client} {needed : UInt64} {key : CString}
  {fuel : Nat} {env : Env} {servers : NodeList}

theorem Contacted.ringReturns (contacted : Contacted sha1 client needed key fuel env servers) :
    RingReturns sha1 client.server client.args.N.toNat key servers :=
  ⟨fuel, [], [], contacted.found⟩

theorem Contacted.length (contacted : Contacted sha1 client needed key fuel env servers) :
    servers.length = client.args.N.toNat := contacted.ringReturns.length

theorem Contacted.nodup (contacted : Contacted sha1 client needed key fuel env servers) :
    (servers.map Node.addr).Nodup := contacted.ringReturns.nodup

theorem networkGet_contacted (inbox : Inbox)
    (contacted : Contacted sha1 client client.args.R key fuel env servers) :
    networkGet sha1 client key fuel env inbox =
      let result := getLoop servers client.args.R servers.length (Htable.empty servers.length) inbox []
      .done (result.1, result.2.1, servers.map fun server => ⟨server.addr, key.bytes⟩, result.2.2) := by
  have built : constructHtable client.args.N.toNat [] = (some (Htable.empty servers.length), []) := by
    rw [contacted.length]; rfl
  simp only [networkGet, Nat.not_lt.mpr contacted.short, contacted.socket, contacted.alloc,
    malloc_nil, built, contacted.found, Outcome.bind, Nat.not_lt.mpr contacted.enough,
    contacted.sends, sendMessages_nil, getMessage, ↓reduceIte, Bool.true_eq_false]

theorem networkPut_contacted (inbox : Inbox) {value : CString}
    (fits : value.strlen ≤ maxMsgElemSize)
    (contacted : Contacted sha1 client client.args.W key fuel env servers) :
    networkPut sha1 client key value fuel env inbox =
      let result := putLoop servers client.args.W servers.length 0 inbox
      .done (result.1, servers.map fun server => ⟨server.addr, putMessage key value⟩, result.2) := by
  simp only [networkPut, Nat.not_lt.mpr contacted.short, Nat.not_lt.mpr fits, contacted.socket,
    contacted.alloc, contacted.found, Outcome.bind, Nat.not_lt.mpr contacted.enough,
    contacted.sends, sendMessages_nil, or_self, ↓reduceIte, Bool.true_eq_false]

end Contacted

def pair : NodeList := [⟨Digest.ofFirst 7, ⟨1, 0⟩, 0⟩, ⟨Digest.ofFirst 8, ⟨2, 0⟩, 0⟩]

def pairClient : Client := ⟨CString.empty, pair, ⟨2, 2, 2⟩⟩

theorem pair_contacted : Contacted (fun _ => Digest.ofFirst 7) pairClient 2 CString.empty 3
    ⟨true, [], []⟩ pair :=
  ⟨by decide, rfl, rfl, by decide, by decide, rfl⟩

/-! What one round of a reply loop counts. -/

/-- The address and bytes of a datagram that passes the sender filter. -/
def accepted (servers : NodeList) : Option Datagram → Option (SockAddr × List UInt8)
  | none => none
  | some datagram =>
    if datagram.peer ∈ servers.map Node.addr then
      some (datagram.peer, datagram.payload.take maxMsgElemSize)
    else none

/-- The server whose acknowledgement an outcome is. -/
def ack (servers : NodeList) (outcome : Option Datagram) : Option SockAddr :=
  (accepted servers outcome).bind fun (server, response) =>
    if response = [] then some server else none

/-- The string an outcome is a reply with, up to its first NUL. -/
def vote (servers : NodeList) (outcome : Option Datagram) : Option CString :=
  (accepted servers outcome).bind fun (_, response) =>
    if response = [0] then none else some (CString.ofMemory response)

theorem receiveMessage_cases (servers : NodeList) (outcome : Option Datagram) :
    (∃ server response, accepted servers outcome = some (server, response) ∧
        receiveMessage servers outcome = (.none, response)) ∨
      ∃ response, accepted servers outcome = none ∧
        receiveMessage servers outcome = (.network, response) := by
  cases outcome with
  | none => exact .inr ⟨[], rfl, rfl⟩
  | some datagram =>
    have filter : (servers.any fun server => decide (datagram.peer = server.addr)) = true ↔
        datagram.peer ∈ servers.map Node.addr := by
      simp only [List.any_eq_true, decide_eq_true_eq, List.mem_map]
      exact ⟨fun ⟨n, member, same⟩ => ⟨n, member, same.symm⟩,
        fun ⟨n, member, same⟩ => ⟨n, member, same.symm⟩⟩
    by_cases known : datagram.peer ∈ servers.map Node.addr
    · refine .inl ⟨datagram.peer, datagram.payload.take maxMsgElemSize, ?_, ?_⟩
      · exact if_pos known
      · exact if_pos (filter.mpr known)
    · refine .inr ⟨datagram.payload.take maxMsgElemSize, ?_, ?_⟩
      · exact if_neg known
      · exact if_neg (filter.not.mpr known)

theorem not_lone_nul_iff (response : List UInt8) :
    (response.length ≠ 1 ∨ response.headD 0 ≠ 0) ↔ response ≠ [0] := by
  rcases response with _ | ⟨byte, _ | ⟨next, rest⟩⟩ <;> simp

theorem getLoop_cons (servers : NodeList) (R : UInt64) (rounds : Nat) (table : Htable)
    (outcome : Option Datagram) (inbox : Inbox) (a : Alloc) :
    getLoop servers R (rounds + 1) table (outcome :: inbox) a =
      match vote servers outcome with
      | none => getLoop servers R rounds table inbox a
      | some value =>
        match incrementAndTest table value R a with
        | (true, _, _) => (.none, some value, inbox)
        | (false, table, a) => getLoop servers R rounds table inbox a := by
  rcases receiveMessage_cases servers outcome with
    ⟨server, response, known, received⟩ | ⟨response, unknown, refused⟩
  · by_cases lone : response = [0]
    · simp [getLoop, recvfrom, received, vote, known, lone]
    · have counted := (not_lone_nul_iff response).mpr lone
      simp only [getLoop, recvfrom, received, vote, known, counted, lone, ↓reduceIte,
        Option.bind_some]
  · simp [getLoop, recvfrom, refused, vote, unknown]

theorem getLoop_nil (servers : NodeList) (R : UInt64) (rounds : Nat) (table : Htable) (a : Alloc) :
    getLoop servers R rounds table [] a = (.network, none, []) := by
  induction rounds with
  | zero => rfl
  | succ rounds ih => simpa [getLoop, recvfrom, receiveMessage] using ih

theorem putLoop_cons (servers : NodeList) (W : UInt64) (rounds nbWrites : Nat)
    (outcome : Option Datagram) (inbox : Inbox) :
    putLoop servers W (rounds + 1) nbWrites (outcome :: inbox) =
      match ack servers outcome with
      | none => putLoop servers W rounds nbWrites inbox
      | some _ =>
        if W.toNat ≤ nbWrites + 1 then (.none, inbox)
        else putLoop servers W rounds (nbWrites + 1) inbox := by
  rcases receiveMessage_cases servers outcome with
    ⟨server, response, known, received⟩ | ⟨response, unknown, refused⟩
  · cases response <;> simp [putLoop, recvfrom, received, ack, known]
  · simp [putLoop, recvfrom, refused, ack, unknown]

theorem putLoop_nil (servers : NodeList) (W : UInt64) (rounds nbWrites : Nat) :
    putLoop servers W rounds nbWrites [] = (.network, []) := by
  induction rounds with
  | zero => rfl
  | succ rounds ih => simpa [putLoop, recvfrom, receiveMessage] using ih

def acks (servers : NodeList) (inbox : Inbox) : List SockAddr :=
  (inbox.take servers.length).filterMap (ack servers)

def votes (servers : NodeList) (inbox : Inbox) : List CString :=
  (inbox.take servers.length).filterMap (vote servers)

end PpsDht
