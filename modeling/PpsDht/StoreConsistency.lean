import PpsDht.StoreInvariant
import PpsDht.ReadQuorum
import PpsDht.WriteQuorum
import Mathlib.Data.List.ReduceOption

/-! Quorum consistency of the whole store. A put that succeeds leaves its value as the
last write at a quorum of servers until a later put of the key, so a get that counts a
quorum of equal replies has heard one of these servers. -/
namespace PpsDht

open CLib Loop

theorem answer_delivered {s : Store} {packet : Packet} {pending : Pending} {answer : Datagram}
    (given : (s.delivered packet).Answer pending answer) :
    s.Answer pending answer ∨ packet.socket = pending.socket ∧ packet.server = answer.peer ∧
      packet.operation.answer (s.tables packet.server) = some answer.payload := by
  cases given with
  | inr received => exact .inl (.inr received)
  | inl flying =>
    cases List.mem_append.mp flying with
    | inl old => exact .inl (.inl old)
    | inr new =>
      obtain ⟨payload, given, same⟩ := List.mem_map.mp new
      obtain ⟨socket, server, rfl⟩ := Reply.mk.inj same
      exact .inr ⟨socket, server, Option.mem_toList.mp given⟩

/-- A server that answers is no longer asked. -/
theorem involved_delivered {s : Store} {packet : Packet} (flying : packet ∈ s.requests)
    (pending : Pending) :
    ((s.delivered packet).involved pending).Subperm (s.involved pending) := by
  set turn := if packet.socket = pending.socket then [packet.server] else [] with turn_eq
  have asked : (turn ++ (s.delivered packet).asked pending.socket).Perm (s.asked pending.socket) := by
    have split := ((List.perm_cons_erase flying).filter
      fun packet => packet.socket = pending.socket).map Packet.server
    by_cases same : packet.socket = pending.socket <;>
      simpa [Store.asked, Store.delivered, turn_eq, same] using split.symm
  have answering : ((s.delivered packet).answering pending.socket).Sublist
      (s.answering pending.socket ++ turn) := by
    rw [Store.answering, Store.delivered, List.filter_append, List.map_append]
    refine List.Sublist.append_left ?_ _
    by_cases same : packet.socket = pending.socket <;>
      cases packet.operation.answer (s.tables packet.server) <;> simp [turn_eq, same]
  have moved : ((s.delivered packet).asked pending.socket ++
      (s.answering pending.socket ++ turn)).Perm
      (s.asked pending.socket ++ s.answering pending.socket) := by
    rw [← List.append_assoc]
    apply List.perm_append_comm.trans
    rw [← List.append_assoc]
    exact asked.append_right _
  exact ((answering.append_left _).append_right _).subperm.trans (moved.append_right _).subperm

/-! The waiting call. -/

def Shows (handled : List Packet) (socket : Nat) (answer : Datagram) : Operation → Prop
  | .put key value => answer.payload = [] ∧ ⟨socket, answer.peer, .put key value⟩ ∈ handled
  | .get _ => (CString.ofMemory answer.payload).strlen ≤ maxMsgElemSize

structure Waiting (sha1 : List UInt8 → Digest) (client : Client) (s : Store) (pending : Pending) :
    Prop where
  newest : s.sockets = pending.socket + 1
  ring : RingReturns sha1 client.server client.args.N.toNat pending.operation.key pending.servers
  sameCall : ∀ packet, s.Sent packet → packet.socket = pending.socket →
    packet.operation = pending.operation
  once : (s.involved pending).Nodup
  shows : ∀ answer, s.Answer pending answer →
    Shows s.handled pending.socket answer pending.operation

/-- The put that succeeded last: a quorum of servers has its value as the last write of the
key, and none of them has answered the running get with another one. -/
structure Holds (sha1 : List UInt8 → Digest) (client : Client) (s : Store) (key value : CString)
    (socket : Nat) (quorum : List SockAddr) : Prop where
  nodup : quorum.Nodup
  enough : client.args.W.toNat ≤ quorum.length
  within : ∀ servers, RingReturns sha1 client.server client.args.N.toNat key servers →
    ∀ server ∈ quorum, server ∈ servers.map Node.addr
  written : ∀ server ∈ quorum, lastWrite s.handled server key = some (socket, value)
  latest : ∀ packet ∈ s.requests, ∀ u, packet.operation = .put key u → packet.socket ≤ socket
  answers : ∀ pending, s.running = some pending → pending.operation = .get key →
    ∀ answer, s.Answer pending answer → answer.peer ∈ quorum → answer.payload = value.bytes

section Preserved

variable {sha1 : List UInt8 → Digest} {client : Client} {keys : Set CString} {s s' : Store}
  {operation : Operation} {packet : Packet} {pending : Pending} {key value : CString}
  {socket : Nat} {quorum : List SockAddr}

theorem nodup_of_subperm {first second : List SockAddr} (part : first.Subperm second)
    (nodup : second.Nodup) : first.Nodup := by
  obtain ⟨front, perm, sublist⟩ := part
  exact perm.nodup_iff.mp (nodup.sublist sublist)

theorem Waiting.quiet
    (waiting : ∀ pending, s.running = some pending → Waiting sha1 client s pending)
    (quiet : Quiet s s') :
    ∀ pending, s'.running = some pending → Waiting sha1 client s' pending := by
  intro pending' running'
  obtain ⟨pending, inbox, running, rfl, fewer, less⟩ := quiet.running pending' running'
  have before := waiting pending running
  exact {
    newest := quiet.sockets.trans before.newest
    ring := before.ring
    sameCall := fun packet sent => before.sameCall packet (quiet.sent sent)
    once := nodup_of_subperm less before.once
    shows := fun answer given => quiet.handled ▸ before.shows answer (fewer answer given) }

theorem Holds.quiet (holds : Holds sha1 client s key value socket quorum) (quiet : Quiet s s') :
    Holds sha1 client s' key value socket quorum where
  nodup := holds.nodup
  enough := holds.enough
  within := holds.within
  written := quiet.handled ▸ holds.written
  latest packet flying := holds.latest packet (quiet.requests flying)
  answers pending' running' read answer given := by
    obtain ⟨pending, inbox, running, rfl, fewer, _⟩ := quiet.running pending' running'
    exact holds.answers pending running read answer (fewer answer given)

theorem Holds.sends (holds : Holds sha1 client s key value socket quorum)
    (sends : Sends s s' operation) (apart : ∀ u, operation ≠ .put key u)
    (silent : ∀ pending, s'.running = some pending → ∀ answer, ¬ s'.Answer pending answer) :
    Holds sha1 client s' key value socket quorum where
  nodup := holds.nodup
  enough := holds.enough
  within := holds.within
  written := sends.handled ▸ holds.written
  latest packet flying u put := by
    cases sends.requests packet flying with
    | inl old => exact holds.latest packet old u put
    | inr new => exact absurd (new.2.symm.trans put) (apart u)
  answers pending running _ answer given := absurd given (silent pending running answer)

theorem Shows.cons {handled : List Packet} {answer : Datagram}
    (shows : Shows handled socket answer operation) (packet : Packet) :
    Shows (packet :: handled) socket answer operation := by
  cases operation with
  | put key value => exact ⟨shows.1, List.mem_cons_of_mem _ shows.2⟩
  | get key => exact shows

theorem Waiting.delivered (waiting : Waiting sha1 client s pending) (traffic : Traffic s)
    (flying : packet ∈ s.requests) : Waiting sha1 client (s.delivered packet) pending where
  newest := waiting.newest
  ring := waiting.ring
  sameCall other sent := waiting.sameCall other (sent_delivered flying sent)
  once := nodup_of_subperm (involved_delivered flying pending) waiting.once
  shows answer given := by
    cases answer_delivered given with
    | inl old => exact (waiting.shows answer old).cons packet
    | inr new =>
      obtain ⟨same, peer, reply⟩ := new
      have operation := waiting.sameCall packet (.inl flying) same
      obtain ⟨i, a, o⟩ := packet
      simp only at same peer operation reply
      subst same peer operation
      cases call : pending.operation with
      | put key value =>
        rw [call] at reply
        exact ⟨(Option.some.inj reply).symm, call ▸ List.mem_cons_self⟩
      | get key =>
        rw [call] at reply
        obtain ⟨found, lookup, payload⟩ := Option.map_eq_some_iff.mp reply
        obtain ⟨_, _, written⟩ := (traffic.tables _).written_of_lookup lookup
        have short : found.strlen ≤ maxMsgElemSize := (traffic.allowed _ (.inr written)).2.2
        rw [Shows, ← payload, CString.ofMemory_bytes]
        exact short

theorem Holds.delivered (holds : Holds sha1 client s key value socket quorum)
    (waiting : ∀ pending, s.running = some pending → Waiting sha1 client s pending)
    (traffic : Traffic s) (flying : packet ∈ s.requests) (orderly : Orderly keys s packet) :
    Holds sha1 client (s.delivered packet) key value socket quorum where
  nodup := holds.nodup
  enough := holds.enough
  within := holds.within
  written server member := by
    have last := holds.written server member
    change lastWrite (packet :: s.handled) server key = _
    rw [lastWrite_cons]
    cases write : writeOf server key packet with
    | none => exact last
    | some found =>
      -- the only write of the key still on its way to the quorum is the same put's
      obtain ⟨i, u⟩ := found
      obtain rfl := (writeOf_eq_some_iff ..).mp write
      have done := lastWrite_mem last
      have newer : socket ≤ i := orderly.inOrder _ done rfl key value u rfl rfl
      have older : i ≤ socket := holds.latest _ flying u rfl
      obtain rfl := Nat.le_antisymm older newer
      have same := traffic.sameCall _ _ (.inl flying) (.inr done) rfl
      rw [Option.some_or, (Operation.put.inj same).2]
  latest other left := holds.latest other (List.mem_of_mem_erase left)
  answers pending running read answer given member := by
    cases answer_delivered given with
    | inl old => exact holds.answers pending running read answer old member
    | inr new =>
      obtain ⟨same, peer, reply⟩ := new
      have operation := (waiting pending running).sameCall packet (.inl flying) same
      rw [read] at operation
      -- the server has handled a write of the key that is asked for
      have written := holds.written _ member
      have asked := orderly.before _ (lastWrite_mem written) key value rfl
      have clear := fun older done same k v put => orderly.apart older done same k v put
      rw [operation, Operation.key] at clear
      rw [operation, Operation.answer, (traffic.tables _).lookup fun older done same k v put =>
        clear older done same k v put asked, peer, written] at reply
      exact (Option.some.inj reply).symm

end Preserved

/-! What a returned call has seen. -/

def voters (servers : NodeList) (inbox : Inbox) (v : CString) : List SockAddr :=
  (inbox.take servers.length).filterMap fun outcome =>
    if carried servers outcome = some v then outcome.map Datagram.peer else none

theorem length_voters (servers : NodeList) (inbox : Inbox) (v : CString) :
    (voters servers inbox v).length = (repliesOf servers inbox).count v := by
  rw [voters, repliesOf, List.count, List.countP_filterMap, List.length_filterMap_eq_countP]
  apply List.countP_congr
  intro outcome _
  cases outcome with
  | none => simp [carried]
  | some datagram =>
    cases carried servers (some datagram) with
    | none => simp
    | some u => by_cases same : u = v <;> simp [same]

theorem carried_eq_some {servers : NodeList} {outcome : Option Datagram} {v : CString}
    (counted : carried servers outcome = some v) :
    ∃ server payload, outcome = some ⟨server, payload⟩ ∧ server ∈ servers.map Node.addr ∧
      CString.ofMemory payload = v := by
  cases outcome with
  | none => simp [carried] at counted
  | some datagram =>
    simp only [carried] at counted
    split at counted
    · rename_i known
      exact ⟨_, _, rfl, known.1, Option.some.inj counted⟩
    · contradiction

theorem filterMap_sublist {f g : Option Datagram → Option SockAddr}
    (implies : ∀ outcome server, f outcome = some server → g outcome = some server)
    (l : Inbox) : (l.filterMap f).Sublist (l.filterMap g) := by
  induction l with
  | nil => exact List.Sublist.slnil
  | cons outcome rest ih =>
    cases found : f outcome with
    | some server =>
      rw [List.filterMap_cons_some found, List.filterMap_cons_some (implies _ _ found)]
      exact ih.cons_cons server
    | none =>
      rw [List.filterMap_cons_none found]
      exact ih.trans ((List.sublist_cons_self _ _).filterMap g)

section Returned

variable {sha1 : List UInt8 → Digest} {client : Client} {s : Store}
  {pending : Pending} {key value : CString}

theorem Waiting.heard_once (waiting : Waiting sha1 client s pending)
    {f : Option Datagram → Option SockAddr}
    (peer : ∀ outcome server, f outcome = some server → outcome.map Datagram.peer = some server) :
    ((pending.inbox.take pending.servers.length).filterMap f).Nodup := by
  have all : (pending.inbox.reduceOption.map Datagram.peer).Nodup :=
    waiting.once.sublist (List.sublist_append_right _ _)
  rw [List.reduceOption, List.map_filterMap] at all
  refine all.sublist ?_
  exact ((List.take_sublist _ _).filterMap f).trans (filterMap_sublist peer pending.inbox)

/-- A put that succeeds is held by the servers that acknowledged it. -/
theorem Waiting.put_holds (waiting : Waiting sha1 client s pending)
    (running : s.running = some pending) (traffic : Traffic s)
    (one : 1 ≤ client.args.W.toNat) (call : pending.operation = .put key value)
    (succeeded : (pending.result client.args).error = .none) :
    Holds sha1 client s key value pending.socket (acks pending.servers pending.inbox) := by
  have known (server : SockAddr) (member : server ∈ acks pending.servers pending.inbox) :
      server ∈ pending.servers.map Node.addr ∧
        lastWrite s.handled server key = some (pending.socket, value) := by
    obtain ⟨asked, received⟩ := (mem_acks_iff ..).mp member
    have shows := waiting.shows ⟨server, []⟩ (.inr (List.mem_of_mem_take received))
    rw [call] at shows
    exact ⟨asked, traffic.lastWrite_eq shows.2 waiting.newest.le⟩
  constructor
  case nodup =>
    apply waiting.heard_once
    intro outcome server acknowledged
    rw [((ack_eq_some_iff ..).mp acknowledged).2]
    rfl
  case enough =>
    rcases putLoop_cases pending.servers client.args.W pending.servers.length 0 pending.inbox one with
      ⟨enough, _⟩ | ⟨_, ended⟩
    · rwa [Nat.zero_add] at enough
    · simp [Pending.result, call, ended] at succeeded
  case within =>
    intro servers returns server member
    have ring := waiting.ring
    rw [call] at ring
    exact returns.unique ring ▸ (known server member).1
  case written => exact fun server member => (known server member).2
  case latest =>
    intro packet flying _ _
    have before := traffic.fresh packet (.inl flying)
    rw [waiting.newest] at before
    exact Nat.le_of_lt_succ before
  case answers =>
    intro other running' read
    obtain rfl := Option.some.inj (running.symm.trans running')
    rw [call] at read
    contradiction

theorem Waiting.getLoop_eq (waiting : Waiting sha1 client s pending) (quorums : Quorums client.args)
    (call : pending.operation = .get key) (exact : pending.ReadsExactly client.args) :
    getLoop pending.servers client.args.R pending.servers.length
        (Htable.empty pending.servers.length) pending.inbox [] =
      quorumReplies (carried pending.servers) client.args.R.toNat pending.servers.length []
        pending.inbox := by
  have length := waiting.ring.length
  have within := quorums.readWithin
  have small : client.args.R.toNat ≤ 2 ^ 48 := by
    apply within.trans
    rw [← length]
    exact length_le_of_nodup_addr waiting.ring.nodup
  have positive : 0 < pending.servers.length := by
    have one := quorums.readSome
    omega
  have whole : ∀ v ∈ processed pending.servers client.args.R.toNat pending.inbox,
      v.strlen ≤ maxMsgElemSize := by
    intro v member
    obtain ⟨outcome, received, counted⟩ := List.mem_filterMap.mp
      ((prefix_upToQuorum ..).subset member)
    obtain ⟨server, payload, rfl, _, rfl⟩ := carried_eq_some counted
    have shows := waiting.shows _ (.inr (List.mem_of_mem_take received))
    rwa [call] at shows
  obtain ⟨apart, few⟩ := exact key call
  exact getLoop_of_tallies positive quorums.readSome small ⟨whole, apart, few⟩

/-- A get that succeeds has heard a server that holds the value of the last put. -/
theorem Waiting.get_value {socket : Nat} {quorum : List SockAddr}
    (waiting : Waiting sha1 client s pending) (running : s.running = some pending)
    (holds : Holds sha1 client s key value socket quorum) (quorums : Quorums client.args)
    (call : pending.operation = .get key) (exact : pending.ReadsExactly client.args)
    (succeeded : (pending.result client.args).error = .none) :
    (pending.result client.args).value = some value := by
  simp only [Pending.result, call, waiting.getLoop_eq quorums call exact] at succeeded ⊢
  rcases quorumReplies_start (carried pending.servers) pending.servers.length quorums.readSome
    pending.inbox with ⟨read, rest, ended, counted⟩ | ⟨ended, _⟩
  · change client.args.R.toNat ≤ (repliesOf pending.servers pending.inbox).count read at counted
    rw [← length_voters] at counted
    have heard (server : SockAddr) (member : server ∈ voters pending.servers pending.inbox read) :
        server ∈ pending.servers.map Node.addr ∧
          ∃ payload, some ⟨server, payload⟩ ∈ pending.inbox ∧ CString.ofMemory payload = read := by
      obtain ⟨outcome, received, found⟩ := List.mem_filterMap.mp member
      split at found
      · rename_i voted
        obtain ⟨peer, payload, rfl, known, string⟩ := carried_eq_some voted
        obtain rfl : peer = server := Option.some.inj found
        exact ⟨known, payload, List.mem_of_mem_take received, string⟩
      · contradiction
    have nodup : (voters pending.servers pending.inbox read).Nodup := by
      apply waiting.heard_once
      intro outcome server found
      split at found
      · exact found
      · contradiction
    have ring := waiting.ring
    rw [call] at ring
    have many : (pending.servers.map Node.addr).length <
        (voters pending.servers pending.inbox read).length + quorum.length := by
      have meet := quorums.meet
      have enough := holds.enough
      rw [List.length_map, ring.length]
      omega
    obtain ⟨server, voted, member⟩ := Quorum.meet nodup holds.nodup
      (fun server member => (heard server member).1) (holds.within _ ring) many
    obtain ⟨_, payload, received, string⟩ := heard server voted
    have same := holds.answers pending running call ⟨server, payload⟩ (.inr received) member
    simp only at same
    rw [ended, ← string, same, CString.ofMemory_bytes]
  · simp [ended] at succeeded

end Returned

end PpsDht
