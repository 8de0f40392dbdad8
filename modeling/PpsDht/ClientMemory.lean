import PpsDht.NodeListMemory
import PpsDht.ServerMemory
import PpsDht.Store

/-! `network_get` and `network_put` over the heap, for as many calls as a client makes. The
servers found for a key are never freed, and a call that gives up early frees nothing at
all. A response is kept as the string that is read from its buffer. -/
namespace PpsDht

open CLib Loop Heap Prog

namespace Mem

def incrementAndTest (fuel granted : Nat) (table : Ptr) (key : CString) (R : UInt64) :
    Mem Bool := do
  let p ← getHtableValue fuel table key
  if p = 0 then
    let _ ← addHtableValue fuel granted table key (counter 1)
    return R == 1
  else
    let value ← loadString p
    let count := charToSize (value.bytes.headD 0) + 1
    let _ ← addHtableValue fuel granted table key (counter count)
    Prog.free p
    return decide (R ≤ count)

def readNodes (list : Ptr) : Mem NodeList := do
  let (nodes, size) ← loadNodeList list
  loadNodes nodes size 0

/-- The reply loop of `network_get`, with the rounds left: whether it has found a value. -/
def getLoop (fuel granted : Nat) (servers table response : Ptr) (R : UInt64) :
    Nat → Inbox → Mem (Bool × Inbox)
  | 0, inbox => return (false, inbox)
  | rounds + 1, inbox =>
    match recvfrom inbox with
    | (outcome, inbox) => do
      let (error, received) := receiveMessage (← readNodes servers) outcome
      Prog.store response (.string (CString.ofMemory received))
      if error = .none ∧ (received.length ≠ 1 ∨ received.headD 0 ≠ 0) then
        let key ← loadString response
        if ← incrementAndTest fuel granted table key R then return (true, inbox)
        else getLoop fuel granted servers table response R rounds inbox
      else getLoop fuel granted servers table response R rounds inbox

def networkGet (sha1 : List UInt8 → Digest) (ring : Ptr) (args : Args) (key : CString)
    (fuel granted : Nat) (socket : Bool) (sends : List Bool) (inbox : Inbox) :
    Mem (ErrorCode × Ptr × List Datagram × Inbox) := do
  if maxMsgElemSize < key.strlen then return (.badParameter, 0, [], inbox)
  if socket = false then return (.network, 0, [], inbox)
  let response ← calloc (.string CString.empty)
  if response = 0 then return (.nomem, 0, [], inbox)
  let table ← constructHtable args.N.toNat
  if table = 0 then
    Prog.free response
    return (.nomem, 0, [], inbox)
  let servers ← ringGetNodesForKey sha1 ring args.N.toNat key fuel
  let list ← readNodes servers
  if list.length < args.R.toNat then return (.badParameter, 0, [], inbox)
  match sendMessages (getMessage key) list sends with
  | (.none, sent) =>
    let (found, rest) ← getLoop fuel granted servers table response args.R list.length inbox
    let _ ← deleteHtableAndContent fuel table
    if found then return (.none, response, sent, rest)
    Prog.free response
    return (.network, 0, sent, rest)
  | (error, sent) => return (error, 0, sent, inbox)

/-- The message and the response are on the stack. -/
def networkPut (sha1 : List UInt8 → Digest) (ring : Ptr) (args : Args) (key value : CString)
    (fuel : Nat) (socket : Bool) (sends : List Bool) (inbox : Inbox) :
    Mem (ErrorCode × Ptr × List Datagram × Inbox) := do
  if maxMsgElemSize < key.strlen ∨ maxMsgElemSize < value.strlen then
    return (.badParameter, 0, [], inbox)
  if socket = false then return (.network, 0, [], inbox)
  let servers ← ringGetNodesForKey sha1 ring args.N.toNat key fuel
  let list ← readNodes servers
  if list.length < args.W.toNat then return (.badParameter, 0, [], inbox)
  match sendMessages (putMessage key value) list sends with
  | (.none, sent) =>
    match putLoop list args.W list.length 0 inbox with
    | (error, rest) => return (error, 0, sent, rest)
  | (error, sent) => return (error, 0, sent, inbox)

end Mem

structure Attempt where
  operation : Operation
  socket : Bool
  sends : List Bool
  inbox : Inbox

def Mem.attempt (sha1 : List UInt8 → Digest) (ring : Ptr) (args : Args) (fuel granted : Nat)
    (attempt : Attempt) : Mem (ErrorCode × Ptr × List Datagram × Inbox) :=
  match attempt.operation with
  | .get key =>
    networkGet sha1 ring args key fuel granted attempt.socket attempt.sends attempt.inbox
  | .put key value =>
    networkPut sha1 ring args key value fuel attempt.socket attempt.sends attempt.inbox

def Mem.attempts (sha1 : List UInt8 → Digest) (ring : Ptr) (args : Args) (fuel granted : Nat) :
    List Attempt → Mem (List (ErrorCode × Ptr × List Datagram × Inbox))
  | [] => return []
  | first :: later => do
    let result ← attempt sha1 ring args fuel granted first
    let results ← attempts sha1 ring args fuel granted later
    return result :: results

/-! The calls on lists, with the allocations they leave and the blocks they lose. -/

structure Tally where
  value : Option CString
  inbox : Inbox
  table : Htable
  supply : Alloc
  lost : Nat
  deriving DecidableEq

/-- A copied key is lost when the copy of its new counter fails. -/
def incrementLost (t : Htable) (key : CString) (a : Alloc) : Nat :=
  (t.addLost key (getHtableValue t key a).2).length

def tally (servers : NodeList) (R : UInt64) : Nat → Htable → Inbox → Alloc → Tally
  | 0, t, inbox, a => ⟨none, inbox, t, a, 0⟩
  | rounds + 1, t, inbox, a =>
    match recvfrom inbox with
    | (outcome, inbox) =>
      match receiveMessage servers outcome with
      | (.none, response) =>
        if response.length ≠ 1 ∨ response.headD 0 ≠ 0 then
          let key := CString.ofMemory response
          match incrementAndTest t key R a with
          | (true, t', a') => ⟨some key, inbox, t', a', incrementLost t key a⟩
          | (false, t', a') =>
            let later := tally servers R rounds t' inbox a'
            { later with lost := incrementLost t key a + later.lost }
        else tally servers R rounds t inbox a
      | _ => tally servers R rounds t inbox a

structure Ended where
  error : ErrorCode
  value : Option CString
  sent : List Datagram
  inbox : Inbox
  supply : Alloc
  lost : Nat
  deriving DecidableEq

/-- A list without nodes has no array. -/
def listBlocks (servers : NodeList) : Nat := if servers = [] then 1 else 2

/-- The nodes of the counters stay behind when their table is deleted. -/
def getEnded (sha1 : List UInt8 → Digest) (client : Client) (key : CString) (fuel : Nat)
    (env : Env) (inbox : Inbox) : Outcome Ended :=
  if maxMsgElemSize < key.strlen then .done ⟨.badParameter, none, [], inbox, env.alloc, 0⟩
  else if env.socket = false then .done ⟨.network, none, [], inbox, env.alloc, 0⟩
  else
    match malloc env.alloc with
    | (false, a) => .done ⟨.nomem, none, [], inbox, a, 0⟩
    | (true, a) =>
      match constructHtable client.args.N.toNat a with
      | (none, a) => .done ⟨.nomem, none, [], inbox, a, 0⟩
      | (some table, a) =>
        (ringGetNodesForKey sha1 client.server client.args.N.toNat key fuel a).bind fun
          | (none, _) => .fault
          | (some servers, a) =>
            if servers.length < client.args.R.toNat then
              .done ⟨.badParameter, none, [], inbox, a, 3 + listBlocks servers⟩
            else
              match sendMessages (getMessage key) servers env.sends with
              | (.none, sent) =>
                let last := tally servers client.args.R servers.length table inbox a
                .done ⟨if last.value.isSome then .none else .network, last.value, sent, last.inbox,
                  last.supply, listBlocks servers + last.lost + last.table.content.length⟩
              | (error, sent) =>
                .done ⟨error, none, sent, inbox, a, 3 + listBlocks servers⟩

def putEnded (sha1 : List UInt8 → Digest) (client : Client) (key value : CString) (fuel : Nat)
    (env : Env) (inbox : Inbox) : Outcome Ended :=
  if maxMsgElemSize < key.strlen ∨ maxMsgElemSize < value.strlen then
    .done ⟨.badParameter, none, [], inbox, env.alloc, 0⟩
  else if env.socket = false then .done ⟨.network, none, [], inbox, env.alloc, 0⟩
  else
    (ringGetNodesForKey sha1 client.server client.args.N.toNat key fuel env.alloc).bind fun
      | (none, _) => .fault
      | (some servers, a) =>
        if servers.length < client.args.W.toNat then
          .done ⟨.badParameter, none, [], inbox, a, listBlocks servers⟩
        else
          match sendMessages (putMessage key value) servers env.sends with
          | (.none, sent) =>
            match putLoop servers client.args.W servers.length 0 inbox with
            | (error, rest) => .done ⟨error, none, sent, rest, a, listBlocks servers⟩
          | (error, sent) => .done ⟨error, none, sent, inbox, a, listBlocks servers⟩

theorem tally_getLoop (servers : NodeList) (R : UInt64) (rounds : Nat) (t : Htable)
    (inbox : Inbox) (a : Alloc) :
    getLoop servers R rounds t inbox a =
      (if (tally servers R rounds t inbox a).value.isSome then .none else .network,
        (tally servers R rounds t inbox a).value, (tally servers R rounds t inbox a).inbox) := by
  induction rounds generalizing t inbox a with
  | zero => rfl
  | succ rounds ih =>
    rcases received : recvfrom inbox with ⟨outcome, inbox⟩
    rcases filtered : receiveMessage servers outcome with ⟨error, response⟩
    simp only [getLoop, tally, received, filtered]
    cases error
    case none =>
      dsimp only
      split
      · rcases incrementAndTest t (CString.ofMemory response) R a with ⟨_ | _, t', a'⟩
        · exact ih t' inbox a'
        · rfl
      · exact ih t inbox a
    all_goals exact ih t inbox a

theorem getEnded_networkGet (sha1 : List UInt8 → Digest) (client : Client) (key : CString)
    (fuel : Nat) (env : Env) (inbox : Inbox) :
    ((getEnded sha1 client key fuel env inbox).bind fun ended =>
      .done (ended.error, ended.value, ended.sent, ended.inbox)) =
        networkGet sha1 client key fuel env inbox := by
  rw [getEnded, networkGet]
  split
  · rfl
  split
  · rfl
  rcases malloc env.alloc with ⟨_ | _, a⟩
  · rfl
  dsimp only
  rcases constructHtable client.args.N.toNat a with ⟨_ | table, a⟩
  · rfl
  dsimp only
  rcases ringGetNodesForKey sha1 client.server client.args.N.toNat key fuel a with
    ⟨_ | servers, a⟩ | _ | _
  · rfl
  · simp only [Outcome.bind_done]
    split
    · rfl
    rcases sendMessages (getMessage key) servers env.sends with ⟨error, sent⟩
    cases error
    case none => simp only [Outcome.bind_done, tally_getLoop]
    all_goals rfl
  · rfl
  · rfl

theorem putEnded_networkPut (sha1 : List UInt8 → Digest) (client : Client) (key value : CString)
    (fuel : Nat) (env : Env) (inbox : Inbox) :
    ((putEnded sha1 client key value fuel env inbox).bind fun ended =>
      .done (ended.error, ended.sent, ended.inbox)) =
        networkPut sha1 client key value fuel env inbox := by
  rw [putEnded, networkPut]
  split
  · rfl
  split
  · rfl
  rcases ringGetNodesForKey sha1 client.server client.args.N.toNat key fuel env.alloc with
    ⟨_ | servers, a⟩ | _ | _
  · rfl
  · simp only [Outcome.bind_done]
    split
    · rfl
    rcases sendMessages (putMessage key value) servers env.sends with ⟨error, sent⟩
    cases error
    case none => rfl
    all_goals rfl
  · rfl
  · rfl

/-! One call in memory. -/

variable {m : Ram} {blocks rest frame : List (Ptr × Cell)} {granted fuel bound : Nat} {l : Layout}

theorem wp_readNodes {post : NodeList → Ram → Prop} {servers : ServerList}
    (holds : m.heap.Holds blocks) (known : servers.In blocks) (right : post servers.nodes m) :
    wp (Mem.readNodes servers.list) post m :=
  wp_bind (wp_loadNodeList holds known.header (wp_loadNodes [] servers.nodes holds
    (fun some => known _ (servers.array_mem some)) right))

theorem wp_incrementAndTest {key : CString} {R : UInt64} (room : 24 ≤ granted)
    (memory : l.Holds granted frame m) (within : l.table.Within bound) (enough : bound < fuel) :
    wp (Mem.incrementAndTest fuel granted l.address key R) (fun result m' =>
      ∃ (l' : Layout) (lost : List (Ptr × Cell)),
        incrementAndTest l.table key R m.supply = (result, l'.table, m'.supply) ∧
        l'.address = l.address ∧ lost.length = incrementLost l.table key m.supply ∧
        l'.Holds granted (lost ++ frame) m') m := by
  have short := Nat.lt_of_le_of_lt (l.length_chain_le within (hashFunction key l.chains.length)) enough
  refine wp_bind (wp_mono (wp_getHtableValue room memory short) ?_)
  rintro p m₁ ⟨found, copy, got, returned, h₁⟩
  have counted (count : UInt64) :
      wp (Mem.addHtableValue fuel granted l.address key (counter count)) _ m₁ :=
    wp_addHtableValue room h₁ short
  cases found with
  | none =>
    obtain ⟨rfl, rfl⟩ := returned
    rw [if_pos rfl]
    refine wp_bind (wp_mono (counted 1) ?_)
    rintro error m₂ ⟨l', lost, added, place, dropped, h₂⟩
    refine wp_pure ⟨l', lost, ?_, place, ?_, h₂⟩
    · simp only [incrementAndTest, got, added]
    · rw [incrementLost, got, ← dropped, List.length_map]
  | some value =>
    obtain ⟨live, rfl⟩ := returned
    rw [if_neg live]
    refine wp_bind (wp_loadString h₁.holds
      (List.mem_append_right _ (List.mem_append_left _ List.mem_cons_self)) ?_)
    refine wp_bind (wp_mono (counted _) ?_)
    rintro error m₂ ⟨l', lost, added, place, dropped, h₂⟩
    have own : m₂.heap.Holds ((p, .string value) ::
        (l'.blocks granted ++ (lost ++ frame))) := h₂.holds.perm (by grind)
    refine wp_bind (wp_free own fun m₃ s₃ h₃ => wp_pure ⟨l', lost, ?_, place, ?_, h₂.positive, h₃⟩)
    · simp only [incrementAndTest, got, added, s₃]
    · rw [incrementLost, got, ← dropped, List.length_map]

/-- A counter makes no chain longer by more than one node. -/
theorem incrementAndTest_within {t t' : Htable} {key : CString} {R : UInt64} {a a' : Alloc}
    {result : Bool} (within : t.Within bound) (positive : 0 < t.size)
    (counted : incrementAndTest t key R a = (result, t', a')) :
    t'.Within (bound + 1) ∧ t'.size = t.size := by
  have added (value : CString) (a : Alloc) : (addHtableValue t key value a).2.1.Within (bound + 1) ∧
      (addHtableValue t key value a).2.1.size = t.size := by
    obtain ⟨rest, added | failed⟩ := addHtableValue_cases t key value a
    · rw [added]
      exact ⟨within.put positive key value, t.size_put key value⟩
    · rw [failed]
      exact ⟨fun index => Nat.le_succ_of_le (within index), rfl⟩
  unfold incrementAndTest at counted
  rcases got : getHtableValue t key a with ⟨_ | value, b⟩
  all_goals
    simp only [got] at counted
    cases counted
    exact added _ _

/-- The response buffer, the table and what was lost, after the reply loop. -/
def TalliedAlike (granted : Nat) (address response : Ptr) (frame : List (Ptr × Cell)) (last : Tally)
    (result : Bool × Inbox) (m' : Ram) : Prop :=
  ∃ (l' : Layout) (lost : List (Ptr × Cell)) (string : CString),
    result = (last.value.isSome, last.inbox) ∧ (∀ value ∈ last.value, string = value) ∧
    l'.table = last.table ∧ l'.address = address ∧ m'.supply = last.supply ∧
    lost.length = last.lost ∧
    l'.Holds granted ((response, .string string) :: (lost ++ frame)) m'

theorem wp_getLoop {servers : ServerList} {response : Ptr} {string : CString} (R : UInt64)
    (rounds : Nat) (inbox : Inbox) (room : 24 ≤ granted) (known : servers.In frame)
    (memory : l.Holds granted ((response, .string string) :: frame) m)
    (within : l.table.Within bound) (enough : bound + rounds < fuel) :
    wp (Mem.getLoop fuel granted servers.list l.address response R rounds inbox)
      (fun result m' => TalliedAlike granted l.address response frame
        (tally servers.nodes R rounds l.table inbox m.supply) result m' ∧
          (tally servers.nodes R rounds l.table inbox m.supply).table.Within (bound + rounds)) m := by
  induction rounds generalizing l m string inbox frame bound with
  | zero =>
    exact wp_pure ⟨⟨l, [], string, rfl, by simp [tally], rfl, rfl, rfl, rfl, memory⟩, within⟩
  | succ rounds ih =>
    rcases received : recvfrom inbox with ⟨outcome, left⟩
    rcases filtered : receiveMessage servers.nodes outcome with ⟨error, bytes⟩
    simp only [Mem.getLoop, received]
    have list : servers.In (l.blocks granted ++ ((response, .string string) :: frame)) :=
      ServerList.In.append fun block member => List.mem_cons_of_mem _ (known block member)
    refine wp_bind (wp_readNodes memory.holds list ?_)
    simp only [filtered]
    refine wp_bind (wp_store _ (memory.holds.perm List.perm_middle) fun m₁ s₁ h₁ => ?_)
    have memory₁ : l.Holds granted ((response, .string (CString.ofMemory bytes)) :: frame) m₁ :=
      ⟨memory.positive, h₁.perm List.perm_middle.symm⟩
    have later : bound + 1 + rounds = bound + (rounds + 1) := by omega
    have wider : l.table.Within (bound + 1) := fun index => Nat.le_succ_of_le (within index)
    have idle := ih left known memory₁ wider (later ▸ enough)
    rw [s₁, later] at idle
    by_cases counts : error = .none ∧ (bytes.length ≠ 1 ∨ bytes.headD 0 ≠ 0)
    · obtain ⟨rfl, notNul⟩ := counts
      rw [if_pos ⟨rfl, notNul⟩]
      refine wp_bind (wp_loadString h₁ List.mem_cons_self ?_)
      have below : bound < fuel := by omega
      have counting :
          wp (Mem.incrementAndTest fuel granted l.address (CString.ofMemory bytes) R) _ m₁ :=
        wp_incrementAndTest room memory₁ within below
      refine wp_bind (wp_mono counting ?_)
      rintro result m₂ ⟨l₂, lost, counted, place, dropped, h₂⟩
      rw [s₁] at counted dropped
      have positive : 0 < l.table.size := by
        rw [l.size_table]
        exact memory.positive
      obtain ⟨kept, _⟩ := incrementAndTest_within within positive counted
      have memory₂ : l₂.Holds granted ((response, .string (CString.ofMemory bytes)) ::
          (lost ++ frame)) m₂ := ⟨h₂.positive, h₂.holds.perm (List.perm_middle.append_left _)⟩
      cases result with
      | true =>
        simp only [tally, received, filtered, notNul, ↓reduceIte, counted]
        refine wp_pure ⟨⟨l₂, lost, _, rfl, by simp, rfl, place, rfl, dropped, memory₂⟩, ?_⟩
        exact fun index => Nat.le_trans (kept index) (by omega)
      | false =>
        simp only [tally, received, filtered, notNul, ↓reduceIte, counted]
        have apart : servers.In (lost ++ frame) := known.append
        have more := ih left apart memory₂ kept (later ▸ enough)
        rw [place, later] at more
        refine wp_mono more ?_
        rintro result m₃ ⟨⟨l₃, lost₃, s₃, rfl, string₃, table₃, place₃, supply₃, count₃, h₃⟩, short⟩
        have gathered : (lost₃ ++ (lost ++ frame)).Perm (lost ++ lost₃ ++ frame) := by
          rw [List.append_assoc]
          exact List.perm_append_comm_assoc ..
        refine ⟨⟨l₃, lost ++ lost₃, s₃, rfl, string₃, table₃, place₃, supply₃, ?_,
          h₃.positive, h₃.holds.perm ((gathered.cons _).append_left _)⟩, short⟩
        rw [List.length_append, dropped, count₃]
    · rw [if_neg counts]
      have same : tally servers.nodes R (rounds + 1) l.table inbox m.supply =
          tally servers.nodes R rounds l.table left m.supply := by
        simp only [tally, received, filtered]
        cases error
        case none => exact if_neg fun notNul => counts ⟨rfl, notNul⟩
        all_goals rfl
      rw [same]
      exact idle

def EndedAlike (frame : List (Ptr × Cell)) (ended : Ended)
    (result : ErrorCode × Ptr × List Datagram × Inbox) (m' : Ram) : Prop :=
  ∃ (p : Ptr) (own lost : List (Ptr × Cell)), result = (ended.error, p, ended.sent, ended.inbox) ∧
    Returned p ended.value own ∧ m'.supply = ended.supply ∧ lost.length = ended.lost ∧
    m'.heap.Holds (own ++ (lost ++ frame))

theorem ServerList.length_blocks (s : ServerList) : s.blocks.length = listBlocks s.nodes := by
  rw [blocks, arrayBlocks, listBlocks]
  split <;> rfl

theorem Layout.length_blocks_empty {l : Layout} {size : Nat} (empty : l.table = Htable.empty size) :
    (l.blocks granted).length = 2 := by
  have nothing : (Htable.empty size).content = [] := by simp [Htable.content, Htable.empty]
  rw [l.length_blocks, empty, nothing]
  rfl

theorem endsAs_networkGet (sha1 : List UInt8 → Digest) {client : Client} {ring : ServerList}
    (server : ring.nodes = client.server) (positive : 0 < client.args.N.toNat)
    (enough : client.args.N.toNat < fuel) (room : 24 ≤ granted) (holds : m.heap.Holds frame)
    (known : ring.In frame) (key : CString) (socket : Bool) (sends : List Bool) (inbox : Inbox) :
    EndsAs (getEnded sha1 client key fuel ⟨socket, m.supply, sends⟩ inbox)
      (Mem.networkGet sha1 ring.list client.args key fuel granted socket sends inbox)
      (EndedAlike frame) m := by
  rw [getEnded, Mem.networkGet]
  split
  · exact endsAs_pure ⟨0, [], [], rfl, ⟨rfl, rfl⟩, rfl, rfl, holds⟩
  split
  · exact endsAs_pure ⟨0, [], [], rfl, ⟨rfl, rfl⟩, rfl, rfl, holds⟩
  refine endsAs_of_wp (wp_calloc malloc _ holds (fun m₁ s₁ h₁ => ?_) fun response m₁ live s₁ h₁ => ?_)
  · simp only [s₁]
    exact endsAs_pure ⟨0, [], [], rfl, ⟨rfl, rfl⟩, rfl, rfl, h₁⟩
  simp only [s₁, if_neg live]
  refine endsAs_of_wp (wp_mono (wp_constructHtable granted positive h₁) ?_)
  rintro table m₂ ⟨result, constructed, new⟩
  simp only [constructed]
  cases result with
  | none =>
    obtain ⟨rfl, h₂⟩ := new
    refine endsAs_of_wp (wp_free h₂ fun m₃ s₃ h₃ => ?_)
    exact endsAs_pure ⟨0, [], [], rfl, ⟨rfl, rfl⟩, s₃, rfl, h₃⟩
  | some t =>
  obtain ⟨l, rfl, rfl, memory⟩ := new
  have empty := constructHtable_empty constructed
  rw [if_neg memory.address_ne_null]
  have inFrame : ring.In (l.blocks granted ++ ((response, .string CString.empty) :: frame)) :=
    ServerList.In.append fun block member => List.mem_cons_of_mem _ (known block member)
  have search := endsAs_ringGetNodesForKey sha1 memory.holds inFrame client.args.N.toNat key fuel
  rw [server] at search
  refine endsAs_bind search ?_
  rintro ⟨_ | nodes, a⟩ p m₃ found ⟨rfl, collected⟩
  · obtain ⟨rfl, _⟩ := collected
    exact fault_bind (fault_bind (fault_bind load_null))
  obtain ⟨servers, rfl, rfl, h₃⟩ := collected
  have length : servers.nodes.length = client.args.N.toNat := RingReturns.length ⟨_, _, _, found⟩
  refine endsAs_of_wp (wp_readNodes h₃ (fun block member => List.mem_append_left _ member) ?_)
  -- nothing is freed when the call gives up here
  have abandoned (error : ErrorCode) (sent : List Datagram) :
      EndedAlike frame ⟨error, none, sent, inbox, m₃.supply, 3 + listBlocks servers.nodes⟩
        (error, 0, sent, inbox) m₃ := by
    refine ⟨0, [], servers.blocks ++ (l.blocks granted ++ [(response, .string CString.empty)]), rfl,
      ⟨rfl, rfl⟩, rfl, ?_, h₃.perm (by grind)⟩
    simp only [List.length_append, servers.length_blocks, l.length_blocks_empty empty,
      List.length_singleton]
    omega
  dsimp only
  split
  · exact endsAs_pure (abandoned _ _)
  cases reached : sendMessages (getMessage key) servers.nodes sends with
  | mk error sent =>
  cases error
  case none =>
    have own : l.Holds granted ((response, .string CString.empty) :: (servers.blocks ++ frame)) m₃ :=
      ⟨memory.positive, h₃.perm (by grind)⟩
    have within : l.table.Within 0 := empty ▸ Htable.within_empty _
    have reach : 0 + servers.nodes.length < fuel := by omega
    have loop := wp_getLoop client.args.R servers.nodes.length inbox room
      (fun block member => List.mem_append_left _ member) own within reach
    refine endsAs_of_wp (wp_mono loop ?_)
    generalize tally servers.nodes client.args.R servers.nodes.length l.table inbox m₃.supply = last
    rintro _ m₄ ⟨⟨l₄, lost, string, rfl, value, table, place, supply, count, h₄⟩, short⟩
    rw [← table] at short
    have chains := Layout.length_chain_lt short reach
    rw [← place]
    refine endsAs_of_wp (wp_mono (wp_deleteHtableAndContent room h₄ chains) ?_)
    rintro _ m₅ ⟨rfl, s₅, h₅⟩
    have nodes : (l₄.chains.flatMap (spent granted)).length = last.table.content.length := by
      rw [← List.length_map Prod.snd, map_snd_spent, List.length_replicate, ← table,
        l₄.length_content]
    have counted : (servers.blocks ++ (lost ++ l₄.chains.flatMap (spent granted))).length =
        listBlocks servers.nodes + last.lost + last.table.content.length := by
      rw [List.length_append, List.length_append, servers.length_blocks, count, nodes]
      omega
    cases voted : last.value with
    | some found =>
      obtain rfl := value found (by simp [voted])
      refine wp_pure ⟨response, [(response, .string string)], _, by simp, ⟨live, rfl⟩,
        s₅.trans supply, counted, h₅.perm (by grind)⟩
    | none =>
      refine endsAs_of_wp (wp_free (h₅.perm List.perm_middle) fun m₆ s₆ h₆ => ?_)
      exact endsAs_pure ⟨0, [], _, by simp, ⟨rfl, rfl⟩, (s₆.trans s₅).trans supply,
        counted, h₆.perm (by grind)⟩
  all_goals exact endsAs_pure (abandoned _ _)

theorem endsAs_networkPut (sha1 : List UInt8 → Digest) {client : Client} {ring : ServerList}
    (server : ring.nodes = client.server) (holds : m.heap.Holds frame) (known : ring.In frame)
    (key value : CString) (socket : Bool) (sends : List Bool) (inbox : Inbox) :
    EndsAs (putEnded sha1 client key value fuel ⟨socket, m.supply, sends⟩ inbox)
      (Mem.networkPut sha1 ring.list client.args key value fuel socket sends inbox)
      (EndedAlike frame) m := by
  rw [putEnded, Mem.networkPut]
  split
  · exact endsAs_pure ⟨0, [], [], rfl, ⟨rfl, rfl⟩, rfl, rfl, holds⟩
  split
  · exact endsAs_pure ⟨0, [], [], rfl, ⟨rfl, rfl⟩, rfl, rfl, holds⟩
  have search := endsAs_ringGetNodesForKey sha1 holds known client.args.N.toNat key fuel
  rw [server] at search
  refine endsAs_bind search ?_
  rintro ⟨_ | nodes, a⟩ p m₁ _ ⟨rfl, collected⟩
  · obtain ⟨rfl, _⟩ := collected
    exact fault_bind (fault_bind (fault_bind load_null))
  obtain ⟨servers, rfl, rfl, h₁⟩ := collected
  refine endsAs_of_wp (wp_readNodes h₁ (fun block member => List.mem_append_left _ member) ?_)
  have kept (error : ErrorCode) (sent : List Datagram) (left : Inbox) :
      EndedAlike frame ⟨error, none, sent, left, m₁.supply, listBlocks servers.nodes⟩
        (error, 0, sent, left) m₁ :=
    ⟨0, [], servers.blocks, rfl, ⟨rfl, rfl⟩, rfl, servers.length_blocks, h₁⟩
  dsimp only
  split
  · exact endsAs_pure (kept _ _ _)
  cases reached : sendMessages (putMessage key value) servers.nodes sends with
  | mk error sent =>
  cases error <;> exact endsAs_pure (kept _ _ _)

/-! A run of calls. -/

def Attempt.ended (sha1 : List UInt8 → Digest) (client : Client) (fuel : Nat) (attempt : Attempt)
    (a : Alloc) : Outcome Ended :=
  match attempt.operation with
  | .get key => getEnded sha1 client key fuel ⟨attempt.socket, a, attempt.sends⟩ attempt.inbox
  | .put key value =>
    putEnded sha1 client key value fuel ⟨attempt.socket, a, attempt.sends⟩ attempt.inbox

def attemptsEnded (sha1 : List UInt8 → Digest) (client : Client) (fuel : Nat) :
    List Attempt → Alloc → Outcome (List Ended × Alloc)
  | [], a => .done ([], a)
  | first :: later, a =>
    (first.ended sha1 client fuel a).bind fun ended =>
      (attemptsEnded sha1 client fuel later ended.supply).bind fun (rest, a) =>
        .done (ended :: rest, a)

def lostBlocks (run : List Ended) : Nat := run.foldr (fun ended count => ended.lost + count) 0

inductive Handed :
    List (ErrorCode × Ptr × List Datagram × Inbox) → List Ended → List (Ptr × Cell) → Prop where
  | nil : Handed [] [] []
  | cons {results run copies ended p copy} (returned : Returned p ended.value copy)
      (later : Handed results run copies) :
      Handed ((ended.error, p, ended.sent, ended.inbox) :: results) (ended :: run) (copy ++ copies)

/-- In any run of calls of a client, whatever the network and the allocator do, the results
are those of the calls on lists, memory is misused only where those fault, and behind the
ring and the values returned exactly the blocks counted as lost stay allocated: the servers
found by each call among them. -/
theorem client_memory_accounted (sha1 : List UInt8 → Digest) (client : Client)
    (positive : 0 < client.args.N.toNat) (granted : Nat) (room : 24 ≤ granted) (fuel : Nat)
    (enough : client.args.N.toNat < fuel) (attempts : List Attempt) (m : Ram)
    (frame : List (Ptr × Cell)) (holds : m.heap.Holds frame) (ring : ServerList)
    (server : ring.nodes = client.server) (known : ring.In frame) :
    EndsAs (attemptsEnded sha1 client fuel attempts m.supply)
      (Mem.attempts sha1 ring.list client.args fuel granted attempts)
      (fun run results m' => ∃ copies lost, Handed results run.1 copies ∧ m'.supply = run.2 ∧
        lost.length = lostBlocks run.1 ∧ m'.heap.Holds (copies ++ (lost ++ frame))) m := by
  induction attempts generalizing m frame with
  | nil => exact endsAs_pure ⟨[], [], .nil, rfl, rfl, holds⟩
  | cons first later ih =>
    have one : EndsAs (first.ended sha1 client fuel m.supply)
        (Mem.attempt sha1 ring.list client.args fuel granted first) (EndedAlike frame) m := by
      rw [Attempt.ended, Mem.attempt]
      cases first.operation with
      | get key => exact endsAs_networkGet sha1 server positive enough room holds known ..
      | put key value => exact endsAs_networkPut sha1 server holds known ..
    rw [attemptsEnded, Mem.attempts]
    refine endsAs_bind one ?_
    rintro ended _ m₁ _ ⟨p, own, lost, rfl, returned, supply, count, h₁⟩
    have rest := ih m₁ (own ++ (lost ++ frame)) h₁ known.append.append
    rw [supply] at rest
    refine endsAs_bind rest ?_
    rintro ⟨run, a⟩ results m₂ _ ⟨copies, lost₂, handed, supply₂, count₂, h₂⟩
    refine endsAs_pure ⟨own ++ copies, lost ++ lost₂, .cons returned handed, supply₂, ?_,
      h₂.perm (by grind)⟩
    rw [List.length_append, count, count₂]
    rfl

/-- A value is read from two servers and written back to them. Eight blocks are live: two of
the ring, the value, two lists of servers, and the node of a counter. -/
theorem client_memory_accounted_pair :
    ∃ results m' live, Mem.attempts (fun _ => Digest.ofFirst 7) 2 ⟨2, 2, 2⟩ 3 24
        [⟨.get CString.empty, true, [], [some ⟨⟨1, 0⟩, [49]⟩, some ⟨⟨2, 0⟩, [49]⟩]⟩,
          ⟨.put CString.empty (.ofMemory [49]), true, [], [some ⟨⟨1, 0⟩, []⟩, some ⟨⟨2, 0⟩, []⟩]⟩]
        ⟨((Heap.empty.allocate (.servers (pair.map some))).2.allocate (.nodeList 1 2)).2, []⟩ =
          .done (results, m') ∧
      m'.heap.Holds live ∧ live.length = 2 + 1 + 2 * 2 + 1 := by
  have holds := (Heap.holds_empty.allocate (Cell.servers (pair.map some))).allocate (.nodeList 1 2)
  -- the calls are kept folded until it is known how they end
  obtain ⟨calls, same⟩ : ∃ calls : List Attempt, calls =
      [⟨.get CString.empty, true, [], [some ⟨⟨1, 0⟩, [49]⟩, some ⟨⟨2, 0⟩, [49]⟩]⟩,
        ⟨.put CString.empty (.ofMemory [49]), true, [], [some ⟨⟨1, 0⟩, []⟩, some ⟨⟨2, 0⟩, []⟩]⟩] :=
    ⟨_, rfl⟩
  have ran : ∃ first second, attemptsEnded (fun _ => Digest.ofFirst 7) pairClient 3 calls [] =
      .done ([first, second], []) ∧ first.value = some (.ofMemory [49]) ∧ first.lost = 3 ∧
        second.value = none ∧ second.lost = 2 := by
    subst same
    exact ⟨⟨.none, some (.ofMemory [49]), pair.map fun server => ⟨server.addr, []⟩, [], [], 3⟩,
      ⟨.none, none, pair.map fun server => ⟨server.addr, [0, 49]⟩, [], [], 2⟩,
      by decide +kernel, rfl, rfl, rfl, rfl⟩
  obtain ⟨first, second, ran, value, lost, none, lost₂⟩ := ran
  have whole := client_memory_accounted (fun _ => Digest.ofFirst 7) pairClient (by decide) 24
    (by decide) 3 (by decide) calls ⟨_, []⟩ _ holds ⟨2, 1, pair, by simp [pair]⟩ rfl
    (fun block member => member)
  rw [ran] at whole
  obtain ⟨results, m', ended, copies, dropped, handed, _, count, h'⟩ := whole
  rw [← same]
  refine ⟨results, m', _, ended, h', ?_⟩
  cases handed with
  | cons returned later =>
  cases later with
  | cons returned₂ later =>
  cases later
  rw [value] at returned
  rw [none] at returned₂
  obtain ⟨_, rfl⟩ := returned
  obtain ⟨_, rfl⟩ := returned₂
  simp only [List.length_append, count, lostBlocks, List.foldr_cons, List.foldr_nil, lost, lost₂]
  rfl

end PpsDht
