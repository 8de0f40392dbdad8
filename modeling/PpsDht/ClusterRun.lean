import PpsDht.ClusterSteps

/-! What holds in every state the system can reach, whatever the order of its steps. -/
namespace PpsDht.Cluster

open CLib Loop Transition

/-- The value was put under some key, and one stored key lies above that key and the one
searched; all three share a bucket. -/
def Readable (history : List Event) (key value : CString) : Prop :=
  ∃ written stored first, .called (.put written value) ∈ history ∧
    .called (.put stored first) ∈ history ∧ written ≤ stored ∧ key ≤ stored ∧
    hashFunction written htableSize = hashFunction key htableSize ∧
    hashFunction stored htableSize = hashFunction key htableSize

/-- Where a stored pair comes from: its key from one put, its value perhaps from another. -/
structure Written (history : List Event) (e : KvPair) : Prop where
  short : e.value.strlen ≤ maxMsgElemSize
  key : ∃ first, .called (.put e.key first) ∈ history
  value : ∃ written, .called (.put written e.value) ∈ history ∧ written ≤ e.key ∧
    hashFunction written htableSize = hashFunction e.key htableSize

structure TableSound (history : List Event) (t : Htable) : Prop where
  size : t.size = htableSize
  placed : t.Placed
  written : ∀ index, ∀ e ∈ t.bucket index, Written history e

section Table

variable {history history' : List Event} {t t' : Htable} {key value : CString}

theorem Readable.mono (readable : Readable history key value) (grown : history ⊆ history') :
    Readable history' key value := by
  obtain ⟨written, stored, first, put, put', rest⟩ := readable
  exact ⟨written, stored, first, grown put, grown put', rest⟩

theorem Written.mono {e : KvPair} (written : Written history e) (grown : history ⊆ history') :
    Written history' e where
  short := written.short
  key := written.key.imp fun _ put => grown put
  value := written.value.imp fun _ ⟨put, rest⟩ => ⟨grown put, rest⟩

theorem tableSound_empty : TableSound history (Htable.empty htableSize) where
  size := Htable.size_empty _
  placed := Htable.placed_empty _
  written index e member := by simp at member

theorem TableSound.mono (sound : TableSound history t) (grown : history ⊆ history') :
    TableSound history' t :=
  ⟨sound.size, sound.placed, fun index e member => (sound.written index e member).mono grown⟩

theorem TableSound.positive (sound : TableSound history t) : 0 < t.size := by
  rw [sound.size]
  decide

theorem TableSound.lookup (sound : TableSound history t) (found : t.lookup key = some value) :
    value.strlen ≤ maxMsgElemSize ∧ Readable history key value := by
  obtain ⟨e, member, above, rfl⟩ := Chain.lookup_eq_some found
  obtain ⟨short, ⟨first, put⟩, written, put', below, together⟩ := sound.written _ e member
  have here : hashFunction e.key htableSize = hashFunction key htableSize := by
    rw [← sound.size]
    exact sound.placed _ e member
  exact ⟨short, written, e.key, first, put', put, below, above, together.trans here, here⟩

theorem TableSound.put (sound : TableSound history t)
    (called : .called (.put key value) ∈ history) (short : value.strlen ≤ maxMsgElemSize) :
    TableSound history (t.put key value) := by
  refine ⟨by rw [Htable.size_put, sound.size], sound.placed.put sound.positive key value,
    fun index e member => ?_⟩
  have origin := Htable.mem_bucket_put sound.positive member
  rw [Htable.bucket_put t sound.positive] at member
  split at member
  · rename_i here
    rcases Chain.mem_put member with old | ⟨same, above⟩
    · exact sound.written index e old
    · -- the new value, under the new key or under an old one above it
      rcases origin with ⟨fresh, _⟩ | ⟨old, inside, kept⟩
      · rw [← fresh, ← same] at called
        exact ⟨same ▸ short, ⟨_, called⟩, _, called, le_refl _, rfl⟩
      · have place : hashFunction e.key htableSize = hashFunction key htableSize := by
          rw [← kept, ← sound.size, ← here]
          exact sound.placed index old inside
        refine ⟨same ▸ short, kept ▸ (sound.written index old inside).key, key, ?_, above, place.symm⟩
        rwa [same]
  · exact sound.written index e member

theorem lookup_put_ne_none (positive : 0 < t.size) (found : t.lookup key ≠ none)
    (other value : CString) : (t.put other value).lookup key ≠ none := by
  rw [Htable.lookup, Htable.size_put, Htable.bucket_put t positive]
  split
  · exact Chain.lookup_put_ne_none found other value
  · exact found

end Table

/-- What an answer of a server to this call stands for. -/
def AnswerTo (history : List Event) (socket : Nat) (server : SockAddr) (payload : List UInt8) :
    Operation → Prop
  | .get key => key ≠ CString.empty → ∃ value, payload = value.bytes ∧
      value.strlen ≤ maxMsgElemSize ∧ Readable history key value
  | .put key value => ¬ (key = CString.empty ∧ value = CString.empty) →
      .answered ⟨socket, server, .call (.put key value)⟩ [[]] ∈ history

theorem AnswerTo.mono {history history' : List Event} {socket : Nat} {server : SockAddr}
    {payload : List UInt8} {operation : Operation}
    (answer : AnswerTo history socket server payload operation) (grown : history ⊆ history') :
    AnswerTo history' socket server payload operation := by
  cases operation with
  | get key =>
    intro named
    obtain ⟨value, same, short, readable⟩ := answer named
    exact ⟨value, same, short, readable.mono grown⟩
  | put key value => exact fun named => grown (answer named)

def Justified : Event → List Event → Prop
  | .returned _ (.get key) .none value, older =>
    key ≠ CString.empty → ∃ v, value = some v ∧ Readable older key v
  | .returned socket (.put key value) .none _, older =>
    ¬ (key = CString.empty ∧ value = CString.empty) →
      ∃ server, .answered ⟨socket, server, .call (.put key value)⟩ [[]] ∈ older
  | _, _ => True

def Stores (server : SockAddr) (key : CString) (event : Event) : Prop :=
  ∃ socket value, event = .answered ⟨socket, server, .call (.put key value)⟩ [[]] ∧
    ¬ (key = CString.empty ∧ value = CString.empty)

structure CallSound (sha1 : List UInt8 → Digest) (s : State) (call : Running) : Prop where
  fresh : call.socket < s.sockets
  alone : ∀ packet ∈ s.requests, packet.socket = call.socket →
    packet.message = .call call.operation
  started : ∃ error value sent, perform sha1 call.client call.operation call.fuel call.env [] =
    .done (error, value, sent) ∧ call.servers = sent.map Datagram.peer
  inbox : ∀ datagram, some datagram ∈ call.inbox → datagram.peer ∈ call.servers →
    AnswerTo s.history call.socket datagram.peer datagram.payload call.operation

structure Sound (sha1 : List UInt8 → Digest) (s : State) : Prop where
  tables : ∀ server, TableSound s.history (s.tables server)
  kept : ∀ server key, Since (Stores server key) (· = .restarted server) s.history →
    (s.tables server).lookup key ≠ none
  asked : ∀ packet ∈ s.requests, packet.socket < s.sockets ∧
    ∀ operation, packet.message = .call operation →
      operation.fits = true ∧ .called operation ∈ s.history
  replied : ∀ reply ∈ s.replies, ∃ packet ∈ s.requests, packet.socket = reply.socket ∧
    packet.server = reply.server ∧ ∀ operation, packet.message = .call operation →
      AnswerTo s.history reply.socket reply.server reply.payload operation
  running : ∀ call ∈ s.running, CallSound sha1 s call
  justified : Every Justified s.history

variable {sha1 : List UInt8 → Digest} {s s' : State}

theorem sound_initial : Sound sha1 State.initial where
  tables _ := tableSound_empty
  kept server key since := since.elim
  asked packet member := by simp [State.initial] at member
  replied reply member := by simp [State.initial] at member
  running call member := by simp [State.initial] at member
  justified := trivial

/-! What each step can do. -/

theorem next_call {client : Client} {operation : Operation} {fuel : Nat} {env : Env}
    (step : next sha1 s (.call client operation fuel env) = some s') :
    ∃ error value sent, perform sha1 client operation fuel env [] = .done (error, value, sent) ∧
      s' = { s.sendFrom (sent.map Datagram.peer) (.call operation) with
        running :=
          ⟨s.sockets, client, operation, fuel, env, sent.map Datagram.peer, []⟩ :: s.running
        history := .called operation :: s.history } := by
  rw [next] at step
  split at step
  · rename_i error value sent done
    exact ⟨error, value, sent, done, (Option.some.inj step).symm⟩
  · contradiction

theorem next_probe {server : SockAddr} {message : Message}
    (step : next sha1 s (.probe server message) = some s') :
    (∀ operation, message ≠ .call operation) ∧ s' = s.sendFrom [server] message := by
  cases message with
  | call operation => simp [next] at step
  | alive => exact ⟨nofun, (Option.some.inj step).symm⟩
  | dump => exact ⟨nofun, (Option.some.inj step).symm⟩

theorem next_deliver {packet : Packet} {fuel : Nat} {a : Alloc}
    (step : next sha1 s (.deliver packet fuel a) = some s') :
    packet ∈ s.requests ∧ ∃ table payloads,
      serve fuel (s.tables packet.server) packet.message.payload a = .done (table, payloads) ∧
      s' = { s with
        tables := Function.update s.tables packet.server table
        replies := s.replies ++ payloads.map fun payload => ⟨packet.socket, packet.server, payload⟩
        history := .answered packet payloads :: s.history } := by
  rw [next] at step
  split at step
  · rename_i sent
    split at step
    · rename_i table payloads done
      exact ⟨sent, table, payloads, done, (Option.some.inj step).symm⟩
    · contradiction
  · contradiction

theorem next_receive {reply : Reply} (step : next sha1 s (.receive reply) = some s') :
    reply ∈ s.replies ∧ s' = s.arrive reply.socket (some ⟨reply.server, reply.payload⟩) := by
  rw [next] at step
  split at step
  · rename_i sent
    exact ⟨sent, (Option.some.inj step).symm⟩
  · contradiction

theorem next_stray {socket : Nat} {datagram : Datagram}
    (step : next sha1 s (.stray socket datagram) = some s') :
    (∀ call ∈ s.running, call.socket = socket → datagram.peer ∉ call.servers) ∧
      s' = s.arrive socket (some datagram) := by
  rw [next] at step
  split at step
  · rename_i foreign
    exact ⟨foreign, (Option.some.inj step).symm⟩
  · contradiction

theorem next_finish {socket : Nat} (step : next sha1 s (.finish socket) = some s') :
    ∃ call ∈ s.running, call.socket = socket ∧ ∃ error value sent,
      perform sha1 call.client call.operation call.fuel call.env call.inbox =
        .done (error, value, sent) ∧
      s' = { s with
        running := s.running.filter fun other => other.socket ≠ socket
        history := .returned socket call.operation error value :: s.history } := by
  rw [next] at step
  split at step
  · contradiction
  · rename_i call found
    split at step
    · rename_i error value sent done
      exact ⟨call, List.mem_of_find?_eq_some found, by simpa using List.find?_some found, error,
        value, sent, done, (Option.some.inj step).symm⟩
    · contradiction

/-! What each step keeps. -/

/-- Later packets come from later sockets, and the history only grows. -/
structure Grows (s s' : State) : Prop where
  sockets : s.sockets ≤ s'.sockets
  requests : s.requests ⊆ s'.requests
  later : ∀ packet ∈ s'.requests, packet ∈ s.requests ∨ s.sockets ≤ packet.socket
  history : s.history ⊆ s'.history

theorem CallSound.grows {call : Running} (sound : CallSound sha1 s call) (grows : Grows s s') :
    CallSound sha1 s' call where
  fresh := sound.fresh.trans_le grows.sockets
  alone packet member same := by
    rcases grows.later packet member with old | late
    · exact sound.alone packet old same
    · exact absurd sound.fresh (Nat.not_lt.mpr (same ▸ late))
  started := sound.started
  inbox datagram received known := (sound.inbox datagram received known).mono grows.history

theorem Sound.replied_grows (sound : Sound sha1 s) (grows : Grows s s') {reply : Reply}
    (member : reply ∈ s.replies) : ∃ packet ∈ s'.requests, packet.socket = reply.socket ∧
      packet.server = reply.server ∧ ∀ operation, packet.message = .call operation →
        AnswerTo s'.history reply.socket reply.server reply.payload operation := by
  obtain ⟨packet, sent, socket, server, answer⟩ := sound.replied reply member
  exact ⟨packet, grows.requests sent, socket, server, fun operation call =>
    (answer operation call).mono grows.history⟩

theorem grows_sendFrom (s : State) (servers : List SockAddr) (message : Message)
    (running : List Running) {history : List Event} (more : s.history ⊆ history) :
    Grows s { s.sendFrom servers message with running := running, history := history } where
  sockets := Nat.le_succ _
  requests := List.subset_append_left ..
  later packet member := by
    rcases List.mem_append.mp member with old | new
    · exact .inl old
    · obtain ⟨server, _, rfl⟩ := List.mem_map.mp new
      exact .inr (le_refl s.sockets)
  history := more

theorem Sound.send {servers : List SockAddr} {message : Message} {running : List Running}
    {history : List Event} (sound : Sound sha1 s) (more : s.history ⊆ history)
    (asked : servers ≠ [] → ∀ operation, message = .call operation →
      operation.fits = true ∧ .called operation ∈ history)
    (kept : ∀ server key, Since (Stores server key) (· = .restarted server) history →
      Since (Stores server key) (· = .restarted server) s.history)
    (calls : ∀ call ∈ running, call ∈ s.running ∨
      CallSound sha1 { s.sendFrom servers message with running := running, history := history } call)
    (justified : Every Justified history) :
    Sound sha1 { s.sendFrom servers message with running := running, history := history } := by
  have grows := grows_sendFrom s servers message running more
  refine ⟨fun server => (sound.tables server).mono more,
    fun server key since => sound.kept server key (kept server key since),
    fun packet member => ?_, fun reply member => sound.replied_grows grows member,
    fun call member => (calls call member).elim (fun old => (sound.running call old).grows grows) id,
    justified⟩
  rcases List.mem_append.mp member with old | new
  · have old := sound.asked packet old
    exact ⟨old.1.trans (Nat.lt_succ_self _), fun operation call =>
      (old.2 operation call).imp_right fun called => more called⟩
  · obtain ⟨server, here, rfl⟩ := List.mem_map.mp new
    exact ⟨Nat.lt_succ_self _, asked (List.ne_nil_of_mem here)⟩

theorem Sound.call {client : Client} {operation : Operation} {fuel : Nat} {env : Env}
    (sound : Sound sha1 s) (step : next sha1 s (.call client operation fuel env) = some s') :
    Sound sha1 s' := by
  obtain ⟨error, value, sent, done, rfl⟩ := next_call step
  obtain ⟨result, known, _⟩ := perform_sent done
  refine sound.send (List.subset_cons_self ..) (fun some operation' same => ?_)
    (fun server key since => ?_) (fun call member => ?_) ⟨trivial, sound.justified⟩
  · obtain rfl := Message.call.inj same
    exact ⟨known.fits fun none => some (by rw [none, List.map_nil]), List.mem_cons_self⟩
  · rcases since with ⟨_, _, other, _⟩ | ⟨_, since⟩
    · contradiction
    · exact since
  · rcases List.mem_cons.mp member with rfl | old
    · refine .inr ⟨Nat.lt_succ_self _, fun packet member same => ?_, ⟨_, _, _, done, rfl⟩,
        fun datagram received => by simp at received⟩
      rcases List.mem_append.mp member with old | new
      · exact absurd same (sound.asked packet old).1.ne
      · obtain ⟨server, _, rfl⟩ := List.mem_map.mp new
        rfl
    · exact .inl old

theorem Sound.probe {server : SockAddr} {message : Message} (sound : Sound sha1 s)
    (step : next sha1 s (.probe server message) = some s') : Sound sha1 s' := by
  obtain ⟨other, rfl⟩ := next_probe step
  exact sound.send (List.Subset.refl _) (fun _ operation same => absurd same (other operation))
    (fun _ _ => id) (fun _ => .inl) sound.justified

section Served

variable {history : List Event} {t t' : Htable} {message : Message} {payloads : List (List UInt8)}

theorem Served.tableSound (served : Served t message t' payloads) (sound : TableSound history t)
    (called : ∀ operation, message = .call operation →
      operation.fits = true ∧ .called operation ∈ history) : TableSound history t' := by
  cases served with
  | written key value =>
    obtain ⟨fits, called⟩ := called _ rfl
    exact sound.put called (of_decide_eq_true fits).2
  | _ => exact sound

theorem Served.lookup_ne_none (served : Served t message t' payloads) (sound : TableSound history t)
    {key : CString} (found : t.lookup key ≠ none) : t'.lookup key ≠ none := by
  cases served with
  | written other value => exact lookup_put_ne_none sound.positive found other value
  | _ => exact found

theorem Served.stored {key value : CString}
    (served : Served t (.call (.put key value)) t' [[]]) (sound : TableSound history t)
    (named : ¬ (key = CString.empty ∧ value = CString.empty)) : t'.lookup key ≠ none := by
  cases served with
  | listed => exact absurd ⟨rfl, rfl⟩ named
  | written =>
    rw [Htable.lookup_put_self sound.positive]
    exact nofun

theorem Served.answerTo {operation : Operation} {payload : List UInt8} {socket : Nat}
    {server : SockAddr} (served : Served t (.call operation) t' payloads)
    (sound : TableSound history t) (member : payload ∈ payloads) :
    AnswerTo (.answered ⟨socket, server, .call operation⟩ payloads :: history) socket server payload
      operation := by
  cases served with
  | unnamed => exact fun named => absurd rfl named
  | listed => exact fun named => absurd ⟨rfl, rfl⟩ named
  | found here =>
    obtain ⟨short, readable⟩ := sound.lookup here
    exact fun _ => ⟨_, List.mem_singleton.mp member, short, readable.mono (List.subset_cons_self ..)⟩
  | missed => simp at member
  | written => exact fun _ => List.mem_cons_self
  | refused => simp at member

end Served

theorem Sound.deliver {packet : Packet} {fuel : Nat} {a : Alloc} (sound : Sound sha1 s)
    (step : next sha1 s (.deliver packet fuel a) = some s') : Sound sha1 s' := by
  obtain ⟨sent, table, payloads, done, rfl⟩ := next_deliver step
  obtain ⟨_, asked⟩ := sound.asked packet sent
  have served := serve_message (fun operation call => (asked operation call).1) done
  have old := sound.tables packet.server
  have grows : Grows s { s with
      tables := Function.update s.tables packet.server table
      replies := s.replies ++ payloads.map fun payload => ⟨packet.socket, packet.server, payload⟩
      history := .answered packet payloads :: s.history } :=
    ⟨le_refl _, List.Subset.refl _, fun _ => .inl, List.subset_cons_self ..⟩
  refine ⟨fun server => ?_, fun server key since => ?_, fun other member => ?_,
    fun reply member => ?_, fun call member => (sound.running call member).grows grows,
    trivial, sound.justified⟩
  · by_cases here : server = packet.server
    · subst here
      dsimp only
      rw [Function.update_self]
      exact (served.tableSound old asked).mono grows.history
    · dsimp only
      rw [Function.update_of_ne here]
      exact (sound.tables server).mono grows.history
  · by_cases here : server = packet.server
    · subst here
      dsimp only
      rw [Function.update_self]
      rcases since with ⟨socket, value, same, named⟩ | ⟨_, since⟩
      · obtain ⟨whole, rfl⟩ := Event.answered.inj same
        rw [whole] at served old
        exact served.stored old named
      · exact served.lookup_ne_none old (sound.kept _ key since)
    · dsimp only
      rw [Function.update_of_ne here]
      rcases since with ⟨socket, value, same, _⟩ | ⟨_, since⟩
      · obtain ⟨whole, _⟩ := Event.answered.inj same
        exact absurd (congrArg Packet.server whole).symm here
      · exact sound.kept server key since
  · exact (sound.asked other member).imp_right fun known operation call =>
      (known operation call).imp_right fun called => grows.history called
  · rcases List.mem_append.mp member with before | new
    · exact sound.replied_grows grows before
    · obtain ⟨payload, here, rfl⟩ := List.mem_map.mp new
      refine ⟨packet, sent, rfl, rfl, fun operation call => ?_⟩
      obtain ⟨socket, server, message⟩ := packet
      obtain rfl : message = .call operation := call
      exact served.answerTo old here

theorem Sound.restart {server : SockAddr} (sound : Sound sha1 s)
    (step : next sha1 s (.restart server) = some s') : Sound sha1 s' := by
  obtain rfl := Option.some.inj step
  have grows : Grows s { s with
      tables := Function.update s.tables server (Htable.empty htableSize)
      history := .restarted server :: s.history } :=
    ⟨le_refl _, List.Subset.refl _, fun _ => .inl, List.subset_cons_self ..⟩
  refine ⟨fun other => ?_, fun other key since => ?_, fun packet member => ?_,
    fun reply member => sound.replied_grows grows member,
    fun call member => (sound.running call member).grows grows, trivial, sound.justified⟩
  · by_cases here : other = server
    · subst here
      dsimp only
      rw [Function.update_self]
      exact tableSound_empty
    · dsimp only
      rw [Function.update_of_ne here]
      exact (sound.tables other).mono grows.history
  · rcases since with ⟨_, _, same, _⟩ | ⟨apart, since⟩
    · contradiction
    · have here : other ≠ server := fun same => apart (by rw [same])
      dsimp only
      rw [Function.update_of_ne here]
      exact sound.kept other key since
  · exact (sound.asked packet member).imp_right fun known operation call =>
      (known operation call).imp_right fun called => grows.history called

theorem Sound.arrive (sound : Sound sha1 s) {socket : Nat} {outcome : Option Datagram}
    (answers : ∀ call ∈ s.running, call.socket = socket → ∀ datagram, outcome = some datagram →
      datagram.peer ∈ call.servers →
      AnswerTo s.history call.socket datagram.peer datagram.payload call.operation) :
    Sound sha1 (s.arrive socket outcome) := by
  refine ⟨sound.tables, sound.kept, sound.asked, sound.replied, fun call member => ?_,
    sound.justified⟩
  obtain ⟨before, here, rfl⟩ := List.mem_map.mp member
  have old := sound.running before here
  split
  · rename_i mine
    refine ⟨old.fresh, old.alone, old.started, fun datagram received known => ?_⟩
    rcases List.mem_append.mp received with earlier | now
    · exact old.inbox datagram earlier known
    · exact answers before here mine datagram (List.mem_singleton.mp now).symm known
  · exact ⟨old.fresh, old.alone, old.started, old.inbox⟩

theorem Sound.receive {reply : Reply} (sound : Sound sha1 s)
    (step : next sha1 s (.receive reply) = some s') : Sound sha1 s' := by
  obtain ⟨member, rfl⟩ := next_receive step
  refine sound.arrive fun call running mine datagram same _ => ?_
  obtain rfl := Option.some.inj same
  obtain ⟨packet, sent, socket, _, answer⟩ := sound.replied reply member
  have message := (sound.running call running).alone packet sent (socket.trans mine.symm)
  rw [mine]
  exact answer call.operation message

theorem Sound.stray {socket : Nat} {datagram : Datagram} (sound : Sound sha1 s)
    (step : next sha1 s (.stray socket datagram) = some s') : Sound sha1 s' := by
  obtain ⟨foreign, rfl⟩ := next_stray step
  refine sound.arrive fun call running mine datagram same known => ?_
  obtain rfl := Option.some.inj same
  exact absurd known (foreign call running mine)

theorem CallSound.justified {call : Running} (sound : CallSound sha1 s call) {error : ErrorCode}
    {value : Option CString} {sent : List Datagram}
    (done : perform sha1 call.client call.operation call.fuel call.env call.inbox =
      .done (error, value, sent)) :
    Justified (.returned call.socket call.operation error value) s.history := by
  obtain ⟨_, _, first, started, servers⟩ := sound.started
  obtain ⟨result, known, same⟩ := perform_sent started
  obtain ⟨rfl, rfl, rfl⟩ : (result call.inbox).1 = error ∧ (result call.inbox).2 = value ∧
      first = sent := by simpa [same call.inbox] using done
  have heard := known.heard call.inbox
  have answer := sound.inbox
  rw [← servers] at heard
  generalize result call.inbox = returned at heard ⊢
  obtain ⟨error, value⟩ := returned
  by_cases ok : error = .none
  · subst ok
    obtain ⟨datagram, received, asked, reading⟩ := heard rfl
    have answer := answer datagram received asked
    cases operation : call.operation with
    | get key =>
      rw [operation] at answer reading
      intro named
      obtain ⟨v, bytes, short, readable⟩ := answer named
      refine ⟨v, ?_, readable⟩
      rw [reading, bytes, List.take_of_length_le short, CString.ofMemory_bytes]
    | put key written =>
      rw [operation] at answer
      exact fun named => ⟨datagram.peer, answer named⟩
  · cases call.operation <;> cases error <;> trivial

theorem Sound.finish {socket : Nat} (sound : Sound sha1 s)
    (step : next sha1 s (.finish socket) = some s') : Sound sha1 s' := by
  obtain ⟨call, running, rfl, error, value, sent, done, rfl⟩ := next_finish step
  have grows : Grows s { s with
      running := s.running.filter fun other => other.socket ≠ call.socket
      history := .returned call.socket call.operation error value :: s.history } :=
    ⟨le_refl _, List.Subset.refl _, fun _ => .inl, List.subset_cons_self ..⟩
  refine ⟨fun server => (sound.tables server).mono grows.history, fun server key since => ?_,
    fun packet member => ?_, fun reply member => sound.replied_grows grows member,
    fun other member => ?_, (sound.running call running).justified done, sound.justified⟩
  · rcases since with ⟨_, _, same, _⟩ | ⟨_, since⟩
    · contradiction
    · exact sound.kept server key since
  · exact (sound.asked packet member).imp_right fun known operation call =>
      (known operation call).imp_right fun called => grows.history called
  · exact (sound.running other (List.mem_filter.mp member).1).grows grows

theorem Sound.next {action : Action} (sound : Sound sha1 s)
    (step : next sha1 s action = some s') : Sound sha1 s' := by
  cases action with
  | call client operation fuel env => exact sound.call step
  | probe server message => exact sound.probe step
  | deliver packet fuel a => exact sound.deliver step
  | restart server => exact sound.restart step
  | receive reply => exact sound.receive step
  | stray socket datagram => exact sound.stray step
  | timeout socket =>
    obtain rfl := Option.some.inj step
    exact sound.arrive fun _ _ _ datagram none => by contradiction
  | finish socket => exact sound.finish step

theorem sound_run {actions : List Action}
    (ran : run (Cluster.next sha1) State.initial actions = some s) : Sound sha1 s :=
  run_invariant (fun _ _ _ sound step => sound.next step) sound_initial ran

/-! The results. -/

/-- Two clients put values of one key at once, the datagram of the first arrives twice, and
its first value is read after the second was acknowledged. -/
def crossedPuts : List Action :=
  [.call oneServer putOne 3 ⟨true, [], []⟩, .call oneServer putTwo 3 ⟨true, [], []⟩,
    .deliver ⟨0, ⟨1, 0⟩, .call putOne⟩ 0 [], .deliver ⟨1, ⟨1, 0⟩, .call putTwo⟩ 0 [],
    .receive ⟨1, ⟨1, 0⟩, []⟩, .finish 1, .deliver ⟨0, ⟨1, 0⟩, .call putOne⟩ 0 [],
    .call oneServer getKey 3 ⟨true, [], []⟩, .deliver ⟨2, ⟨1, 0⟩, .call getKey⟩ 0 [],
    .receive ⟨2, ⟨1, 0⟩, valueOne.bytes⟩, .finish 2]

def crossedHistory : List Event :=
  [.returned 2 getKey .none (some valueOne),
    .answered ⟨2, ⟨1, 0⟩, .call getKey⟩ [valueOne.bytes], .called getKey,
    .answered ⟨0, ⟨1, 0⟩, .call putOne⟩ [[]], .returned 1 putTwo .none none,
    .answered ⟨1, ⟨1, 0⟩, .call putTwo⟩ [[]], .answered ⟨0, ⟨1, 0⟩, .call putOne⟩ [[]],
    .called putTwo, .called putOne]

theorem crossedPuts_run : ∃ s, run (Cluster.next fun _ => Digest.ofFirst 7) State.initial
    crossedPuts = some s ∧ s.history = crossedHistory :=
  Option.map_eq_some_iff.mp (by decide +kernel)

end PpsDht.Cluster
