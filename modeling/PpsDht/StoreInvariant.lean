import PpsDht.Store

/-! What every step of the store preserves when the network hands no server an older
write of a key after a newer one, and no datagram about a written key that is below a key
written before. -/
namespace PpsDht

open CLib Loop

def IsWritten (handled : List Packet) (key : CString) : Prop :=
  ∃ packet ∈ handled, ∃ value, packet.operation = .put key value

/-- No server handles a datagram about one of the keys that is a proper prefix of a key
written to it before, in that key's bucket. -/
def KeysApart (keys : Set CString) (handled : List Packet) : Prop :=
  handled.Pairwise fun newer older => older.server = newer.server → ∀ key value,
    older.operation = .put key value → newer.operation.key ∈ keys →
      NotBelow htableSize key newer.operation.key

def Store.ended (s : Store) : Action → List Pending
  | .finish => s.running.toList
  | _ => []

def endedCalls (sha1 : List UInt8 → Digest) (client : Client) (s : Store) :
    List Action → List Pending
  | [] => []
  | action :: rest =>
    match next sha1 client s action with
    | some s' => s.ended action ++ endedCalls sha1 client s' rest
    | none => s.ended action

/-- Of the strings that a get processes none is below an earlier one in its bucket, and
none is carried too often for the counter. -/
def Pending.ReadsExactly (args : Args) (pending : Pending) : Prop :=
  ∀ key, pending.operation = .get key →
    let strings := processed pending.servers args.R.toNat pending.inbox
    strings.Pairwise (NotBelow pending.servers.length) ∧
      (args.R.toNat ≤ 129 ∨ ∀ v ∈ strings, strings.count v ≤ 128)

/-- No later put's datagram for the same key has been handed to the packet's server. -/
def InOrder (s : Store) (packet : Packet) : Prop :=
  ∀ older ∈ s.handled, older.server = packet.server → ∀ key u v, older.operation = .put key u →
    packet.operation = .put key v → older.socket ≤ packet.socket

/-! What each step can do. -/

section Next

variable {sha1 : List UInt8 → Digest} {client : Client} {s s' : Store}

theorem next_call {operation : Operation} {fuel : Nat} {sends : List Bool}
    (step : next sha1 client s (.call operation fuel sends) = some s') :
    s.running = none ∧ ∃ servers,
      RingReturns sha1 client.server client.args.N.toNat operation.key servers ∧
        s' = startCall client s operation servers sends := by
  simp only [next] at step
  split at step
  · rename_i servers rest idle _ found
    exact ⟨idle, servers, ⟨fuel, [], rest, found⟩, (Option.some.inj step).symm⟩
  · contradiction

theorem next_refuse {operation : Operation} {error : ErrorCode}
    (step : next sha1 client s (.refuse operation error) = some s') :
    s.running = none ∧ error ≠ .none ∧
      s' = { s with history := ⟨operation, error, none⟩ :: s.history } := by
  simp only [next] at step
  split at step
  · contradiction
  rename_i idle
  split at step
  · contradiction
  rename_i wrong
  exact ⟨idle, wrong, (Option.some.inj step).symm⟩

theorem next_deliver {packet : Packet} (step : next sha1 client s (.deliver packet) = some s') :
    packet ∈ s.requests ∧ handle s packet = some s' := by
  simp only [next] at step
  split at step
  · rename_i flying
    exact ⟨flying, step⟩
  · contradiction

theorem next_receive {reply : Reply} (step : next sha1 client s (.receive reply) = some s') :
    ∃ pending, s.running = some pending ∧ reply ∈ s.replies ∧ reply.socket = pending.socket ∧
      s' = { s with
        replies := s.replies.erase reply
        running := some { pending with
          inbox := pending.inbox ++ [some ⟨reply.server, reply.payload⟩] } } := by
  simp only [next] at step
  split at step
  · contradiction
  rename_i pending running
  split at step
  · rename_i here
    exact ⟨pending, running, here.1, here.2, (Option.some.inj step).symm⟩
  · contradiction

theorem next_timeout (step : next sha1 client s .timeout = some s') :
    ∃ pending, s.running = some pending ∧
      s' = { s with running := some { pending with inbox := pending.inbox ++ [none] } } := by
  simp only [next] at step
  split at step
  · contradiction
  rename_i pending running
  exact ⟨pending, running, (Option.some.inj step).symm⟩

theorem next_finish (step : next sha1 client s .finish = some s') :
    ∃ pending, s.running = some pending ∧
      s' = { s with running := none, history := pending.result client.args :: s.history } := by
  simp only [next] at step
  split at step
  · contradiction
  rename_i pending running
  exact ⟨pending, running, (Option.some.inj step).symm⟩

theorem handle_handled {packet : Packet} (handled : handle s packet = some s') :
    s'.handled = packet :: s.handled := by
  simp only [handle] at handled
  split at handled
  · exact Option.some.inj handled ▸ rfl
  · contradiction

theorem startCall_handled (client : Client) (s : Store) (operation : Operation)
    (servers : NodeList) (sends : List Bool) :
    (startCall client s operation servers sends).handled = s.handled := by
  simp only [startCall]
  split
  · rfl
  split <;> rfl

theorem next_handled {action : Action} (step : next sha1 client s action = some s') :
    s.handled <:+ s'.handled := by
  cases action with
  | call operation fuel sends =>
    obtain ⟨_, servers, _, rfl⟩ := next_call step
    rw [startCall_handled]
  | refuse operation error =>
    obtain ⟨_, _, rfl⟩ := next_refuse step
    exact List.suffix_refl _
  | deliver packet =>
    rw [handle_handled (next_deliver step).2]
    exact List.suffix_cons _ _
  | loseRequest packet =>
    obtain rfl := Option.some.inj step
    exact List.suffix_refl _
  | loseReply reply =>
    obtain rfl := Option.some.inj step
    exact List.suffix_refl _
  | receive reply =>
    obtain ⟨_, _, _, _, rfl⟩ := next_receive step
    exact List.suffix_refl _
  | timeout =>
    obtain ⟨_, _, rfl⟩ := next_timeout step
    exact List.suffix_refl _
  | finish =>
    obtain ⟨_, _, rfl⟩ := next_finish step
    exact List.suffix_refl _

theorem runActions_handled {actions : List Action}
    (run : runActions sha1 client s actions = some s') : s.handled <:+ s'.handled := by
  induction actions generalizing s with
  | nil =>
    obtain rfl := Option.some.inj run
    exact List.suffix_refl _
  | cons action rest ih =>
    obtain ⟨middle, step, later⟩ := Option.bind_eq_some_iff.mp run
    exact (next_handled step).trans (ih later)

end Next

/-! The last write a server has handled. -/

def writeOf (server : SockAddr) (key : CString) (packet : Packet) : Option (Nat × CString) :=
  match packet.operation with
  | .put written value =>
    if packet.server = server ∧ written = key then some (packet.socket, value) else none
  | .get _ => none

theorem writeOf_eq_some_iff (server : SockAddr) (key : CString) (packet : Packet) (socket : Nat)
    (value : CString) :
    writeOf server key packet = some (socket, value) ↔ packet = ⟨socket, server, .put key value⟩ := by
  obtain ⟨i, a, operation⟩ := packet
  cases operation with
  | put written v =>
    by_cases here : a = server ∧ written = key
    · simp [writeOf, here]
    · simp only [writeOf, here, ↓reduceIte, reduceCtorEq, Packet.mk.injEq, Operation.put.injEq,
        false_iff]
      exact fun same => here ⟨same.2.1, same.2.2.1⟩
  | get k => simp [writeOf]

def lastWrite (handled : List Packet) (server : SockAddr) (key : CString) :
    Option (Nat × CString) :=
  handled.findSome? (writeOf server key)

theorem lastWrite_cons (packet : Packet) (handled : List Packet) (server : SockAddr)
    (key : CString) : lastWrite (packet :: handled) server key =
      (writeOf server key packet).or (lastWrite handled server key) := by
  rw [lastWrite, List.findSome?_cons]
  cases writeOf server key packet <;> rfl

/-- Newer writes of a key at a server belong to later calls. -/
def Ordered (handled : List Packet) : Prop :=
  handled.Pairwise fun newer older => older.server = newer.server → ∀ key u v,
    older.operation = .put key u → newer.operation = .put key v → older.socket ≤ newer.socket

theorem lastWrite_mem {handled : List Packet} {server : SockAddr} {key value : CString}
    {socket : Nat} (last : lastWrite handled server key = some (socket, value)) :
    ⟨socket, server, .put key value⟩ ∈ handled := by
  obtain ⟨packet, member, found⟩ := List.exists_of_findSome?_eq_some last
  exact (writeOf_eq_some_iff ..).mp found ▸ member

/-- In an ordered log the last write is the newest one. -/
theorem Ordered.lastWrite_newest {handled : List Packet} (ordered : Ordered handled)
    {server : SockAddr} {key v : CString} {i : Nat}
    (member : ⟨i, server, .put key v⟩ ∈ handled) :
    ∃ j u, lastWrite handled server key = some (j, u) ∧ i ≤ j := by
  induction handled with
  | nil => simp at member
  | cons newest rest ih =>
    obtain ⟨before, tail⟩ := List.pairwise_cons.mp ordered
    cases found : writeOf server key newest with
    | some write =>
      obtain ⟨j, u⟩ := write
      refine ⟨j, u, by simp [lastWrite, found], ?_⟩
      obtain rfl := (writeOf_eq_some_iff ..).mp found
      rcases List.mem_cons.mp member with same | older
      · exact (Packet.mk.inj same).1.le
      · exact before _ older rfl key v u rfl rfl
    | none =>
      rcases List.mem_cons.mp member with same | older
      · rw [← same, (writeOf_eq_some_iff ..).mpr rfl] at found
        contradiction
      · obtain ⟨j, u, last, le⟩ := ih tail older
        exact ⟨j, u, by simpa [lastWrite, found] using last, le⟩

/-! One server. -/

/-- Its table holds the last write of every key. -/
structure ServerTable (handled : List Packet) (server : SockAddr) (t : Htable) : Prop where
  size : t.size = htableSize
  placed : t.Placed
  keys : t.KeysIn {key | ∃ socket value, ⟨socket, server, .put key value⟩ ∈ handled}
  binding : ∀ key, t.binding key = (lastWrite handled server key).map Prod.snd

namespace Operation

def apply (t : Htable) : Operation → Htable
  | put key value => t.put key value
  | get _ => t

def answer (t : Htable) : Operation → Option (List UInt8)
  | put _ _ => some []
  | get key => (t.lookup key).map CString.bytes

end Operation

/-- A datagram that fills the buffer is not handled. -/
theorem serve_operation {operation : Operation} (allowed : operation.Allowed) (t : Htable)
    {result : Htable × List (List UInt8)}
    (served : serve 0 t operation.message [] = .done result) :
    result = (operation.apply t, (operation.answer t).toList) := by
  cases operation with
  | put key value =>
    obtain ⟨named, short, short'⟩ := allowed
    have read := receiveRequest_putMessage short short'
    rw [if_neg fun both => named both.1] at read
    simp only [serve, Operation.message, read] at served
    by_cases room : key.strlen + value.strlen + 1 < maxMsgSize
    · simp only [room, ↓reduceIte, serveWriteRequest, addHtableValue_nil, Outcome.done.injEq] at served
      exact served.symm
    · simp [room] at served
  | get key =>
    obtain ⟨named, short⟩ := allowed
    have read : receiveRequest (getMessage key) = some (.get key) := by
      rw [receiveRequest_getMessage short, if_neg named]
    simp only [serve, Operation.message, read, serveGetRequest, getHtableValue_nil] at served
    rw [Operation.apply, Operation.answer]
    cases found : t.lookup key <;> simp_all

section Table

variable {handled : List Packet} {server : SockAddr} {t : Htable}

theorem ServerTable.unshadowed (table : ServerTable handled server t) {key : CString}
    (clear : ∀ packet ∈ handled, packet.server = server → ∀ k v, packet.operation = .put k v →
      NotBelow htableSize k key) : t.Unshadowed key := by
  refine Htable.unshadowed_of_keysIn table.placed table.keys ?_
  rintro k ⟨socket, value, member⟩
  rw [table.size]
  exact clear _ member rfl k value rfl

theorem ServerTable.lookup (table : ServerTable handled server t) {key : CString}
    (clear : ∀ packet ∈ handled, packet.server = server → ∀ k v, packet.operation = .put k v →
      NotBelow htableSize k key) :
    t.lookup key = (lastWrite handled server key).map Prod.snd :=
  (Htable.lookup_eq_binding (table.unshadowed clear)).trans (table.binding key)

/-- Even a wrong match answers with a value that was written. -/
theorem ServerTable.written_of_lookup (table : ServerTable handled server t) {key value : CString}
    (found : t.lookup key = some value) : ∃ socket k, ⟨socket, server, .put k value⟩ ∈ handled := by
  obtain ⟨k, bound⟩ := Htable.binding_of_lookup table.placed found
  rw [table.binding k, Option.map_eq_some_iff] at bound
  obtain ⟨⟨socket, written⟩, last, rfl⟩ := bound
  exact ⟨socket, k, lastWrite_mem last⟩

theorem ServerTable.apply {socket : Nat} {operation : Operation}
    (table : ServerTable handled server t)
    (clear : ∀ key value, operation = .put key value → ∀ packet ∈ handled,
      packet.server = server → ∀ k v, packet.operation = .put k v → NotBelow htableSize k key) :
    ServerTable (⟨socket, server, operation⟩ :: handled) server (operation.apply t) := by
  have older (key : CString) : (∃ socket value, ⟨socket, server, .put key value⟩ ∈ handled) →
      ∃ i value, ⟨i, server, .put key value⟩ ∈
        (⟨socket, server, operation⟩ :: handled : List Packet) :=
    fun ⟨i, value, member⟩ => ⟨i, value, List.mem_cons_of_mem _ member⟩
  have known := table.keys.mono older
  cases operation with
  | get key =>
    refine ⟨table.size, table.placed, known, fun k => ?_⟩
    have none : writeOf server k ⟨socket, server, .get key⟩ = none := rfl
    rw [lastWrite_cons, none, Option.none_or, Operation.apply]
    exact table.binding k
  | put key value =>
    have positive : 0 < t.size := by
      rw [table.size]
      decide
    have free := table.unshadowed (clear key value rfl)
    change ServerTable _ _ (t.put key value)
    refine ⟨by rw [Htable.size_put, table.size], table.placed.put positive key value,
      known.put positive value ⟨socket, value, List.mem_cons_self⟩, fun k => ?_⟩
    rw [Htable.binding_put positive free, lastWrite_cons, table.binding k]
    by_cases same : k = key
    · simp [writeOf, same]
    · simp [writeOf, same, Ne.symm same]

theorem ServerTable.other {packet : Packet} (table : ServerTable handled server t)
    (apart : packet.server ≠ server) : ServerTable (packet :: handled) server t := by
  have older (key : CString) : (∃ socket value, ⟨socket, server, .put key value⟩ ∈ handled) →
      ∃ socket value, ⟨socket, server, .put key value⟩ ∈ (packet :: handled : List Packet) :=
    fun ⟨socket, value, member⟩ => ⟨socket, value, List.mem_cons_of_mem packet member⟩
  have known := table.keys.mono older
  refine ⟨table.size, table.placed, known, fun key => ?_⟩
  have none : writeOf server key packet = none := by
    cases found : writeOf server key packet with
    | none => rfl
    | some write => exact absurd (congrArg Packet.server ((writeOf_eq_some_iff ..).mp found)) apart
  rw [lastWrite_cons, none, Option.none_or]
  exact table.binding key

end Table

/-! The traffic of a run. -/

/-- The packet has been sent and is not lost. -/
def Store.Sent (s : Store) (packet : Packet) : Prop := packet ∈ s.requests ∨ packet ∈ s.handled

structure Traffic (s : Store) : Prop where
  fresh : ∀ packet, s.Sent packet → packet.socket < s.sockets
  freshReplies : ∀ reply ∈ s.replies, reply.socket < s.sockets
  allowed : ∀ packet, s.Sent packet → packet.operation.Allowed
  sameCall : ∀ packet other, s.Sent packet → s.Sent other → packet.socket = other.socket →
    packet.operation = other.operation
  ordered : Ordered s.handled
  tables : ∀ server, ServerTable s.handled server (s.tables server)

/-- The servers that have not yet handled the call's request. -/
def Store.asked (s : Store) (socket : Nat) : List SockAddr :=
  (s.requests.filter fun packet => packet.socket = socket).map Packet.server

/-- The servers whose answer the call has not yet received. -/
def Store.answering (s : Store) (socket : Nat) : List SockAddr :=
  (s.replies.filter fun reply => reply.socket = socket).map Reply.server

/-- The servers the call has heard of or can still hear of. -/
def Store.involved (s : Store) (pending : Pending) : List SockAddr :=
  s.asked pending.socket ++ s.answering pending.socket ++
    pending.inbox.reduceOption.map Datagram.peer

/-- The datagram is an answer to the call, received or not. -/
def Store.Answer (s : Store) (pending : Pending) (answer : Datagram) : Prop :=
  ⟨pending.socket, answer.peer, answer.payload⟩ ∈ s.replies ∨ some answer ∈ pending.inbox

/-- From `s` to `s'` datagrams may be lost or received, but none is sent or handled. -/
structure Quiet (s s' : Store) : Prop where
  tables : s'.tables = s.tables
  handled : s'.handled = s.handled
  sockets : s'.sockets = s.sockets
  requests : s'.requests ⊆ s.requests
  replies : s'.replies ⊆ s.replies
  running : ∀ pending', s'.running = some pending' → ∃ pending inbox, s.running = some pending ∧
    pending' = { pending with inbox := inbox } ∧
    (∀ answer, s'.Answer pending' answer → s.Answer pending answer) ∧
    (s'.involved pending').Subperm (s.involved pending)

/-- From `s` to `s'` a call sends its requests from a new socket. -/
structure Sends (s s' : Store) (operation : Operation) : Prop where
  tables : s'.tables = s.tables
  handled : s'.handled = s.handled
  sockets : s'.sockets = s.sockets + 1
  requests : ∀ packet ∈ s'.requests,
    packet ∈ s.requests ∨ packet.socket = s.sockets ∧ packet.operation = operation
  replies : s'.replies = s.replies

def Store.delivered (s : Store) (packet : Packet) : Store :=
  { s with
    tables := Function.update s.tables packet.server
      (packet.operation.apply (s.tables packet.server))
    requests := s.requests.erase packet
    replies := s.replies ++ (packet.operation.answer (s.tables packet.server)).toList.map
      fun payload => ⟨packet.socket, packet.server, payload⟩
    handled := packet :: s.handled }

section Traffic

variable {client : Client} {s s' : Store} {operation : Operation} {packet : Packet}
  {keys : Set CString}

theorem handle_eq (allowed : packet.operation.Allowed) (handled : handle s packet = some s') :
    s' = s.delivered packet := by
  simp only [handle] at handled
  split at handled
  · rename_i table sent served
    obtain ⟨rfl, rfl⟩ := Prod.mk.inj (serve_operation allowed _ served)
    exact (Option.some.inj handled).symm
  · contradiction

theorem Quiet.sent (quiet : Quiet s s') (sent : s'.Sent packet) : s.Sent packet := by
  cases sent with
  | inl flying => exact .inl (quiet.requests flying)
  | inr done => exact .inr (quiet.handled ▸ done)

theorem Traffic.quiet (traffic : Traffic s) (quiet : Quiet s s') : Traffic s' where
  fresh packet sent := quiet.sockets ▸ traffic.fresh packet (quiet.sent sent)
  freshReplies reply member := quiet.sockets ▸ traffic.freshReplies reply (quiet.replies member)
  allowed packet sent := traffic.allowed packet (quiet.sent sent)
  sameCall packet other sent sent' := traffic.sameCall packet other (quiet.sent sent) (quiet.sent sent')
  ordered := quiet.handled ▸ traffic.ordered
  tables := quiet.handled ▸ quiet.tables ▸ traffic.tables

theorem Sends.sent (sends : Sends s s' operation) (sent : s'.Sent packet) :
    s.Sent packet ∨ packet.socket = s.sockets ∧ packet.operation = operation := by
  cases sent with
  | inl flying =>
    cases sends.requests packet flying with
    | inl old => exact .inl (.inl old)
    | inr new => exact .inr new
  | inr done => exact .inl (.inr (sends.handled ▸ done))

theorem Traffic.sends (traffic : Traffic s) (sends : Sends s s' operation)
    (allowed : operation.Allowed) : Traffic s' where
  fresh packet sent := by
    rw [sends.sockets]
    cases sends.sent sent with
    | inl old => exact Nat.lt_succ_of_lt (traffic.fresh packet old)
    | inr new => exact new.1 ▸ Nat.lt_succ_self _
  freshReplies reply member := by
    rw [sends.replies] at member
    rw [sends.sockets]
    exact Nat.lt_succ_of_lt (traffic.freshReplies reply member)
  allowed packet sent := by
    cases sends.sent sent with
    | inl old => exact traffic.allowed packet old
    | inr new => exact new.2 ▸ allowed
  sameCall packet other sent sent' same := by
    cases sends.sent sent with
    | inl old =>
      have before := traffic.fresh packet old
      cases sends.sent sent' with
      | inl old' => exact traffic.sameCall packet other old old' same
      | inr new => omega
    | inr new =>
      cases sends.sent sent' with
      | inl old =>
        have before := traffic.fresh other old
        omega
      | inr new' => exact new.2.trans new'.2.symm
  ordered := sends.handled ▸ traffic.ordered
  tables := sends.handled ▸ sends.tables ▸ traffic.tables

theorem sent_delivered (flying : packet ∈ s.requests) {other : Packet}
    (sent : (s.delivered packet).Sent other) : s.Sent other := by
  cases sent with
  | inl left => exact .inl (List.mem_of_mem_erase left)
  | inr done =>
    cases List.mem_cons.mp done with
    | inl same => exact .inl (same ▸ flying)
    | inr old => exact .inr old

/-- What the run's condition says of the newest datagram handled. -/
structure Orderly (keys : Set CString) (s : Store) (packet : Packet) : Prop where
  inOrder : InOrder s packet
  apart : ∀ older ∈ s.handled, older.server = packet.server → ∀ key value,
    older.operation = .put key value → packet.operation.key ∈ keys →
      NotBelow htableSize key packet.operation.key
  known : ∀ key value, packet.operation = .put key value → key ∈ keys
  before : ∀ older ∈ s.handled, ∀ key value, older.operation = .put key value → key ∈ keys

theorem Traffic.delivered (traffic : Traffic s) (flying : packet ∈ s.requests)
    (orderly : Orderly keys s packet) : Traffic (s.delivered packet) where
  fresh other sent := traffic.fresh other (sent_delivered flying sent)
  freshReplies reply member := by
    cases List.mem_append.mp member with
    | inl old => exact traffic.freshReplies reply old
    | inr new =>
      obtain ⟨payload, _, rfl⟩ := List.mem_map.mp new
      exact traffic.fresh packet (.inl flying)
  allowed other sent := traffic.allowed other (sent_delivered flying sent)
  sameCall first second sent sent' :=
    traffic.sameCall first second (sent_delivered flying sent) (sent_delivered flying sent')
  ordered := List.pairwise_cons.mpr ⟨orderly.inOrder, traffic.ordered⟩
  tables server := by
    change ServerTable (packet :: s.handled) server
      (Function.update s.tables packet.server (packet.operation.apply _) server)
    by_cases here : packet.server = server
    · subst here
      rw [Function.update_self]
      refine (traffic.tables packet.server).apply fun key value put older member same k v written => ?_
      have apart := orderly.apart older member same k v written
      rw [put] at apart
      exact apart (orderly.known key value put)
    · rw [Function.update_of_ne (Ne.symm here)]
      exact (traffic.tables server).other here

/-- A handled write is the last one of its key if no later call has written it. -/
theorem Traffic.lastWrite_eq (traffic : Traffic s) {socket : Nat} {server : SockAddr}
    {key value : CString} (done : ⟨socket, server, .put key value⟩ ∈ s.handled)
    (last : s.sockets ≤ socket + 1) :
    lastWrite s.handled server key = some (socket, value) := by
  obtain ⟨j, u, found, le⟩ := traffic.ordered.lastWrite_newest done
  have member := lastWrite_mem found
  have before := traffic.fresh _ (.inr member)
  obtain rfl : j = socket := by
    simp only at before
    omega
  have same := traffic.sameCall _ _ (.inr member) (.inr done) rfl
  rw [found, (Operation.put.inj same).2]

end Traffic

end PpsDht
