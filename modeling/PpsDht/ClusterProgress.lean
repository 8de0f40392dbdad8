import PpsDht.ClusterRun

/-! The system can always go on: whatever is in flight, and whichever calls are running, a
put and a later get succeed as soon as enough servers of the key answer them. -/
namespace PpsDht.Cluster

open CLib Loop Transition

theorem serve_put {key value : CString} (named : key ≠ CString.empty)
    (short : key.strlen ≤ maxMsgElemSize) (short' : value.strlen ≤ maxMsgElemSize)
    (room : key.strlen + value.strlen + 1 < maxMsgSize) (t : Htable) (fuel : Nat) :
    serve fuel t (putMessage key value) [] = .done (t.put key value, [[]]) := by
  have read := receiveRequest_putMessage short short'
  rw [if_neg fun empty => named empty.1, if_pos room] at read
  simp only [serve, read, serveWriteRequest, addHtableValue_nil]

theorem serve_get {key value : CString} (named : key ≠ CString.empty)
    (short : key.strlen ≤ maxMsgElemSize) {t : Htable} (found : t.lookup key = some value)
    (fuel : Nat) : serve fuel t (getMessage key) [] = .done (t, [value.bytes]) := by
  have read := receiveRequest_getMessage short
  rw [if_neg named] at read
  simp only [serve, read, serveGetRequest, getHtableValue_nil, found]

variable {sha1 : List UInt8 → Digest} {s : State}

/-- Each of these servers handles the request of the call, and its answer is received. -/
def exchange (socket : Nat) (operation : Operation) (payload : List UInt8) :
    List SockAddr → List Action
  | [] => []
  | server :: rest =>
    .deliver ⟨socket, server, .call operation⟩ 0 [] :: .receive ⟨socket, server, payload⟩ ::
      exchange socket operation payload rest

def answered (payload : List UInt8) (servers : List SockAddr) : Inbox :=
  servers.map fun server => some ⟨server, payload⟩

/-- Only the call at the head and the tables have changed, and no call has returned. -/
structure Exchanged (s s' : State) (call : Running) (others : List Running)
    (payload : List UInt8) (after : SockAddr → Htable) (servers : List SockAddr) : Prop where
  running : s'.running = { call with inbox := call.inbox ++ answered payload servers } :: others
  sockets : s'.sockets = s.sockets
  requests : s'.requests = s.requests
  tables : ∀ server, s'.tables server = if server ∈ servers then after server else s.tables server
  history : s.history <:+ s'.history

theorem run_exchange {call : Running} {others : List Running} {payload : List UInt8}
    {after : SockAddr → Htable} {servers : List SockAddr} (running : s.running = call :: others)
    (apart : ∀ other ∈ others, other.socket ≠ call.socket) (nodup : servers.Nodup)
    (asked : ∀ server ∈ servers, ⟨call.socket, server, .call call.operation⟩ ∈ s.requests)
    (answers : ∀ server ∈ servers, serve 0 (s.tables server) call.operation.message [] =
      .done (after server, [payload])) :
    ∃ s', run (next sha1) s (exchange call.socket call.operation payload servers) = some s' ∧
      Exchanged s s' call others payload after servers := by
  induction servers generalizing s call with
  | nil =>
    refine ⟨s, rfl, by simp [running, answered], rfl, rfl, fun _ => by simp, List.suffix_refl _⟩
  | cons server rest ih =>
    obtain ⟨fresh, nodup⟩ := List.nodup_cons.mp nodup
    let handled : State := { s with
      tables := Function.update s.tables server (after server)
      replies := s.replies ++ [⟨call.socket, server, payload⟩]
      history := .answered ⟨call.socket, server, .call call.operation⟩ [payload] :: s.history }
    have delivered : next sha1 s (.deliver ⟨call.socket, server, .call call.operation⟩ 0 []) =
        some handled := by
      rw [next, if_pos (asked server List.mem_cons_self)]
      simp only [Message.payload, answers server List.mem_cons_self, List.map_cons, List.map_nil,
        handled]
    have received : next sha1 handled (.receive ⟨call.socket, server, payload⟩) =
        some (handled.arrive call.socket (some ⟨server, payload⟩)) :=
      if_pos (List.mem_append_right _ List.mem_cons_self)
    have same : others.map (fun other => if other.socket = call.socket then
        { other with inbox := other.inbox ++ [some ⟨server, payload⟩] } else other) = others :=
      (List.map_congr_left fun other member => if_neg (apart other member)).trans (List.map_id' _)
    have front : (handled.arrive call.socket (some ⟨server, payload⟩)).running =
        { call with inbox := call.inbox ++ [some ⟨server, payload⟩] } :: others := by
      simp only [State.arrive, handled, running, List.map_cons, ↓reduceIte, same]
    have elsewhere (other) (member : other ∈ rest) : handled.tables other = s.tables other :=
      Function.update_of_ne (fun here : other = server => fresh (here ▸ member)) ..
    have later (other) (member : other ∈ rest) : serve 0 (handled.tables other)
        call.operation.message [] = .done (after other, [payload]) := by
      rw [elsewhere other member]
      exact answers other (List.mem_cons_of_mem _ member)
    obtain ⟨s', ran, exchanged⟩ := ih front apart nodup
      (fun other member => asked other (List.mem_cons_of_mem _ member)) later
    refine ⟨s', run_cons_iff.mpr ⟨_, delivered, run_cons_iff.mpr ⟨_, received, ran⟩⟩,
      by simp [exchanged.running, answered], exchanged.sockets, exchanged.requests, fun other => ?_,
      (List.suffix_cons ..).trans exchanged.history⟩
    rw [exchanged.tables]
    by_cases here : other = server
    · subst here
      rw [if_neg fresh, if_pos List.mem_cons_self]
      exact Function.update_self ..
    · simp only [List.mem_cons, here, false_or]
      split
      · rfl
      · exact Function.update_of_ne here ..

/-- The step is one of a client, or of one of these servers handling a request. -/
def By (up : List SockAddr) : Action → Prop
  | .call _ _ _ _ => True
  | .deliver packet _ _ => packet.server ∈ up
  | .receive _ => True
  | .finish _ => True
  | _ => False

theorem by_exchange {up : List SockAddr} (socket : Nat) (operation : Operation)
    (payload : List UInt8) {servers : List SockAddr} (within : ∀ server ∈ servers, server ∈ up) :
    ∀ action ∈ exchange socket operation payload servers, By up action := by
  induction servers with
  | nil => simp [exchange]
  | cons server rest ih =>
    have later := ih fun other member => within other (List.mem_cons_of_mem _ member)
    simp only [exchange, List.mem_cons, forall_eq_or_imp]
    exact ⟨within server List.mem_cons_self, trivial, later⟩

theorem run_call {client : Client} {operation : Operation} {fuel : Nat} {env : Env}
    {sent : List Datagram} {up : List SockAddr} {payload : List UInt8} {after : SockAddr → Htable}
    {error : ErrorCode} {value : Option CString} (sound : Sound sha1 s)
    (result : perform sha1 client operation fuel env (answered payload up) =
      .done (error, value, sent))
    (within : up ⊆ sent.map Datagram.peer) (nodup : up.Nodup)
    (answers : ∀ server ∈ up, serve 0 (s.tables server) operation.message [] =
      .done (after server, [payload])) :
    ∃ actions s' older, run (next sha1) s actions = some s' ∧ (∀ action ∈ actions, By up action) ∧
      s'.history = .returned s.sockets operation error value :: older ∧ s.history <:+ older ∧
      ∀ server, s'.tables server = if server ∈ up then after server else s.tables server := by
  obtain ⟨answer, _, same⟩ := perform_sent result
  let call : Running :=
    ⟨s.sockets, client, operation, fuel, env, sent.map Datagram.peer, []⟩
  let waiting : State := { s.sendFrom call.servers (.call operation) with
    running := call :: s.running
    history := .called operation :: s.history }
  have called : next sha1 s (.call client operation fuel env) = some waiting := by
    rw [next, same []]
  have asked (server) (member : server ∈ up) :
      ⟨call.socket, server, .call call.operation⟩ ∈ waiting.requests :=
    List.mem_append_right _ (List.mem_map_of_mem (within member))
  have apart (other) (member : other ∈ s.running) : other.socket ≠ call.socket :=
    (sound.running other member).fresh.ne
  obtain ⟨heard, exchanging, exchanged⟩ : ∃ heard, run (next sha1) waiting
      (exchange s.sockets operation payload up) = some heard ∧
        Exchanged waiting heard call s.running payload after up :=
    run_exchange rfl apart nodup asked answers
  let ended : State := { heard with
    running := heard.running.filter fun other => other.socket ≠ s.sockets
    history := .returned s.sockets operation error value :: heard.history }
  have finished : next sha1 heard (.finish s.sockets) = some ended := by
    have mine : heard.running.find? (fun other => other.socket = s.sockets) =
        some { call with inbox := answered payload up } := by
      rw [exchanged.running]
      exact List.find?_cons_of_pos (decide_eq_true rfl)
    rw [next, mine]
    simp only [call, result, ended]
  refine ⟨.call client operation fuel env :: (exchange s.sockets operation payload up ++
    [.finish s.sockets]), ended, heard.history, run_cons_iff.mpr ⟨_, called, run_append exchanging
      (run_cons_iff.mpr ⟨_, finished, rfl⟩)⟩, ?_, rfl,
    (List.suffix_cons ..).trans exchanged.history, exchanged.tables⟩
  intro action member
  rcases List.mem_cons.mp member with rfl | member
  · trivial
  rcases List.mem_append.mp member with inner | last
  · exact by_exchange _ _ _ (fun _ => id) action inner
  · obtain rfl := List.mem_singleton.mp last
    trivial

/-! What the answers of enough servers make of a call. -/

section Answers

variable {client : Client} {key value : CString} {fuel : Nat} {env : Env} {servers : NodeList}
  {up : List SockAddr}

theorem take_answered (payload : List UInt8) (nodup : up.Nodup)
    (within : up ⊆ servers.map Node.addr) :
    (answered payload up).take servers.length = answered payload up := by
  have length := (nodup.subperm within).length_le
  rw [List.length_map] at length
  exact List.take_of_length_le (by rwa [answered, List.length_map])

theorem filterMap_answered {β : Type} {f : Option Datagram → Option β} {g : SockAddr → β}
    {payload : List UInt8} (each : ∀ server ∈ up, f (some ⟨server, payload⟩) = some (g server)) :
    (answered payload up).filterMap f = up.map g := by
  rw [answered, List.filterMap_map, ← List.filterMap_eq_map]
  exact List.filterMap_congr each

theorem perform_put_answered (contacted : Contacted sha1 client client.args.W key fuel env servers)
    (fits : value.strlen ≤ maxMsgElemSize) (some : 1 ≤ client.args.W.toNat) (nodup : up.Nodup)
    (within : up ⊆ servers.map Node.addr) (enough : client.args.W.toNat ≤ up.length) :
    perform sha1 client (.put key value) fuel env (answered [] up) =
      .done (.none, none, servers.map fun server => ⟨server.addr, putMessage key value⟩) := by
  have acknowledged : (answered [] up).filterMap (ack servers) = up.map id :=
    filterMap_answered fun server member =>
      (ack_eq_some_iff servers _ server).mpr ⟨within member, rfl⟩
  simp only [perform, networkPut_contacted _ fits contacted, Outcome.bind]
  rcases putLoop_cases servers client.args.W servers.length 0 (answered [] up) some with
    ⟨_, _, rest, _, ended, _⟩ | ⟨few, _⟩
  · rw [ended]
  · rw [take_answered [] nodup within, acknowledged, List.map_id] at few
    omega

theorem perform_get_answered (contacted : Contacted sha1 client client.args.R key fuel env servers)
    (fits : value.strlen ≤ maxMsgElemSize) (some : 1 ≤ client.args.R.toNat) (nodup : up.Nodup)
    (within : up ⊆ servers.map Node.addr) (enough : client.args.R.toNat ≤ up.length) :
    perform sha1 client (.get key) fuel env (answered value.bytes up) =
      .done (.none, Option.some value, servers.map fun server => ⟨server.addr, getMessage key⟩) := by
  have voted : votes servers (answered value.bytes up) = List.replicate up.length value := by
    rw [votes, take_answered _ nodup within, ← List.map_const']
    refine filterMap_answered fun server member => ?_
    obtain ⟨node, known, rfl⟩ := List.mem_map.mp (within member)
    exact vote_reply known fits
  have apart : (votes servers (answered value.bytes up)).Pairwise (NotBelow servers.length) := by
    rw [voted]
    exact List.pairwise_replicate.mpr (.inr fun below => absurd below (lt_irrefl _))
  have apart := apart.sublist (prefix_upToQuorum (min client.args.R.toNat 129) [] _).sublist
  simp only [perform, networkGet_contacted _ contacted, Outcome.bind,
    getLoop_of_pairwise (contacted.positive some) some contacted.few apart]
  rw [votes] at voted
  rcases quorumReplies_start (vote servers) servers.length (R := min client.args.R.toNat 129)
    (by omega) (answered value.bytes up) with ⟨v, rest, read, counted⟩ | ⟨_, few⟩
  · rw [voted, List.count_replicate] at counted
    have same : v = value := by
      by_contra other
      rw [if_neg (by simpa using Ne.symm other)] at counted
      omega
    rw [read, same]
    rfl
  · have few := few value
    rw [voted, List.count_replicate_self] at few
    omega

end Answers

/-- Enough of the servers where the client looks for this key are up. -/
structure Up (sha1 : List UInt8 → Digest) (client : Client) (key : CString) (up : List SockAddr) :
    Prop where
  nodup : up.Nodup
  within : ∃ servers fuel, ringGetNodesForKey sha1 client.server client.args.N.toNat key fuel [] =
    .done (some servers, []) ∧ up ⊆ servers.map Node.addr
  readSome : 1 ≤ client.args.R.toNat
  writeSome : 1 ≤ client.args.W.toNat
  read : client.args.R.toNat ≤ up.length
  write : client.args.W.toNat ≤ up.length

theorem Up.contacted {client : Client} {key : CString} {up : List SockAddr}
    (reached : Up sha1 client key up) (short : key.strlen ≤ maxMsgElemSize) :
    ∃ servers fuel, up ⊆ servers.map Node.addr ∧
      Contacted sha1 client client.args.R key fuel ⟨true, [], []⟩ servers ∧
      Contacted sha1 client client.args.W key fuel ⟨true, [], []⟩ servers := by
  obtain ⟨servers, fuel, found, within⟩ := reached.within
  have length := (reached.nodup.subperm within).length_le
  rw [List.length_map] at length
  exact ⟨servers, fuel, within, ⟨short, rfl, rfl, found, reached.read.trans length, rfl⟩,
    ⟨short, rfl, rfl, found, reached.write.trans length, rfl⟩⟩

/-- From every state the system can reach, whatever is in flight, a put and then a get can
succeed, and the get returns the value put, with no server at work but those that are up. -/
theorem cluster_available {actions : List Action} {client : Client} {key value : CString}
    {up : List SockAddr} (ran : run (next sha1) State.initial actions = some s)
    (reached : Up sha1 client key up) (named : key ≠ CString.empty)
    (short : key.strlen ≤ maxMsgElemSize) (short' : value.strlen ≤ maxMsgElemSize)
    (room : key.strlen + value.strlen + 1 < maxMsgSize) :
    ∃ more s' older before socket socket', run (next sha1) s more = some s' ∧
      (∀ action ∈ more, By up action) ∧
      s'.history = .returned socket (.get key) .none (some value) :: older ∧
      .returned socket' (.put key value) .none none :: before <:+ older ∧ s.history <:+ before := by
  have sound := sound_run ran
  obtain ⟨servers, fuel, within, reading, writing⟩ := reached.contacted short
  obtain ⟨puts, middle, before, putting, byUp, written, start, tables⟩ := run_call sound
    (perform_put_answered writing short' reached.writeSome reached.nodup within reached.write)
    (by rwa [map_peer]) reached.nodup fun server _ => serve_put named short short' room _ _
  have sound' : Sound sha1 middle :=
    run_invariant (fun _ _ _ sound step => sound.next step) sound putting
  have stored (server) (member : server ∈ up) : (middle.tables server).lookup key = some value := by
    rw [tables, if_pos member]
    exact Htable.lookup_put_self (sound.tables server).positive key value
  obtain ⟨gets, s', older, getting, byUp', read, later, _⟩ := run_call sound'
    (perform_get_answered reading short' reached.readSome reached.nodup within reached.read)
    (by rwa [map_peer]) reached.nodup fun server member => serve_get named short (stored server member) _
  refine ⟨puts ++ gets, s', older, before, middle.sockets, s.sockets, run_append putting getting,
    fun action member => ?_, read, written ▸ later, start⟩
  exact (List.mem_append.mp member).elim (byUp action) (byUp' action)

/-- The second of three replicas is down. -/
theorem cluster_available_crossed : ∃ s more s' socket older,
    run (next fun _ => Digest.ofFirst 7) State.initial crossedPuts = some s ∧
      run (next fun _ => Digest.ofFirst 7) s more = some s' ∧
      (∀ action ∈ more, By [⟨1, 0⟩, ⟨3, 0⟩] action) ∧
      s'.history = .returned socket getKey .none (some valueTwo) :: older := by
  obtain ⟨s, ran, _⟩ := crossedPuts_run
  have reached : Up (fun _ => Digest.ofFirst 7) trioClient someKey [⟨1, 0⟩, ⟨3, 0⟩] := by
    constructor
    · decide
    · exact ⟨trio, 4, by decide, by decide⟩
    all_goals decide
  obtain ⟨more, s', older, _, socket, _, after, byUp, read, _⟩ := cluster_available ran reached
    (by decide) (by decide) (show valueTwo.strlen ≤ maxMsgElemSize by decide) (by decide)
  exact ⟨s, more, s', socket, older, ran, after, byUp, read⟩

end PpsDht.Cluster
