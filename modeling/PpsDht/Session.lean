import PpsDht.Commands
import PpsDht.ServerMap

/-! Programs run one after another over a network that loses nothing. Some servers may be down
all the time: nothing reaches them. Each call's datagrams are handled before the next call,
by the servers and to the client in any order. -/
namespace PpsDht

open CLib Loop

inductive Handled : (SockAddr → Htable) → List Datagram → (SockAddr → Htable) → List Datagram → Prop
  | nil (tables : SockAddr → Htable) : Handled tables [] tables []
  | cons {tables tables' : SockAddr → Htable} {datagram : Datagram} {order replies : List Datagram}
      {fuel : Nat} {t : Htable} {payloads : List (List UInt8)}
      (served : serve fuel (tables datagram.peer) datagram.payload [] = .done (t, payloads))
      (later : Handled (Function.update tables datagram.peer t) order tables' replies) :
      Handled tables (datagram :: order) tables'
        (payloads.map (fun payload => ⟨datagram.peer, payload⟩) ++ replies)

/-- A call whose datagrams all reach the servers that are up, and whose answers it all gets. -/
structure Carried (sha1 : List UInt8 → Digest) (live : SockAddr → Bool) (client : Client)
    (fuel : Nat) (call : Exchange) (tables : SockAddr → Htable) (operation : Operation)
    (answer : Answer) (tables' : SockAddr → Htable) : Prop where
  env : call.env = ⟨true, [], []⟩
  exchange : ∃ sent order replies,
    Cluster.perform sha1 client operation fuel call.env call.inbox =
      .done (answer.1, answer.2, sent) ∧
    order.Perm (sent.filter fun datagram => live datagram.peer) ∧
    Handled tables order tables' replies ∧ call.inbox.Perm (replies.map some)

inductive Session (sha1 : List UInt8 → Digest) (live : SockAddr → Bool) :
    (SockAddr → Htable) → List Invocation → List (List UInt8) → Prop
  | nil (tables : SockAddr → Htable) : Session sha1 live tables [] []
  | cons {tables tables' : SockAddr → Htable} {invocation : Invocation}
      {invocations : List Invocation} {client : Client} {command : Command}
      {calls : Nat → Exchange} {text result : List UInt8} {texts : List (List UInt8)}
      (starts : invocation.Starts client command)
      (runs : Interaction.Runs (Carried sha1 live client invocation.fuel) calls tables
        command.calls result tables')
      (printed : invocation.main sha1 calls = .done text)
      (later : Session sha1 live tables' invocations texts) :
      Session sha1 live tables (invocation :: invocations) (text :: texts)

/-- What the commands print, a map in the servers' place. -/
def meanings : FiniteMap → List Command → List (List UInt8)
  | _, [] => []
  | m, command :: rest => (command.meaning m).1 :: meanings (command.meaning m).2 rest

/-- The client finds the key's servers, and enough of them are up. -/
structure Served (sha1 : List UInt8 → Digest) (live : SockAddr → Bool)
    (replicas : CString → List SockAddr) (keys : Set CString) (client : Client) (fuel : Nat)
    (operation : Operation) : Prop where
  known : operation.key ∈ keys
  allowed : operation.Allowed
  room : operation.message.length < maxMsgSize
  found : ∃ servers, ringGetNodesForKey sha1 client.server client.args.N.toNat operation.key fuel [] =
    .done (some servers, []) ∧ servers.map Node.addr = replicas operation.key
  some : 1 ≤ (operation.needed client.args).toNat
  enough : (operation.needed client.args).toNat ≤ ((replicas operation.key).filter live).length

/-- The servers of a key that are up hold what the map holds. -/
structure Replicated (live : SockAddr → Bool) (replicas : CString → List SockAddr)
    (keys : Set CString) (tables : SockAddr → Htable) (m : FiniteMap) : Prop where
  size : ∀ server, (tables server).size = htableSize
  wellFormed : ∀ server, (tables server).WellFormed
  keysIn : ∀ server, (tables server).KeysIn keys
  held : ∀ key ∈ keys, ∀ server ∈ (replicas key).filter live, (tables server).binding key = m key
  short : ∀ key value, m key = some value → value.strlen ≤ maxMsgElemSize

def afterwards (tables after : SockAddr → Htable) (servers : List SockAddr) (server : SockAddr) :
    Htable := if server ∈ servers then after server else tables server

theorem afterwards_self (tables : SockAddr → Htable) (servers : List SockAddr) :
    afterwards tables tables servers = tables := by
  funext server
  exact ite_self _

def Operation.table (t : Htable) : Operation → Htable
  | .put key value => t.put key value
  | .get _ => t

def Operation.payloads (m : FiniteMap) : Operation → List (List UInt8)
  | .put _ _ => [[]]
  | .get key => ((m key).map CString.bytes).toList

theorem handled_iff {tables tables' after : SockAddr → Htable} {message : List UInt8}
    {payloads : List (List UInt8)} {servers : List SockAddr} {replies : List Datagram}
    (nodup : servers.Nodup)
    (answers : ∀ server ∈ servers, ∀ fuel, serve fuel (tables server) message [] =
      .done (after server, payloads)) :
    Handled tables (servers.map fun server => ⟨server, message⟩) tables' replies ↔
      tables' = afterwards tables after servers ∧
        replies = servers.flatMap fun server => payloads.map fun payload => ⟨server, payload⟩ := by
  induction servers generalizing tables replies with
  | nil =>
    have same : afterwards tables after [] = tables := by
      funext server
      exact if_neg List.not_mem_nil
    rw [same]
    constructor
    · intro handled
      cases handled
      exact ⟨rfl, rfl⟩
    · rintro ⟨rfl, rfl⟩
      exact .nil _
  | cons server servers ih =>
    obtain ⟨fresh, nodup⟩ := List.nodup_cons.mp nodup
    have elsewhere (other) (member : other ∈ servers) (t : Htable) :
        Function.update tables server t other = tables other :=
      Function.update_of_ne (fun same : other = server => fresh (same ▸ member)) ..
    have after' : afterwards (Function.update tables server (after server)) after servers =
        afterwards tables after (server :: servers) := by
      funext other
      by_cases here : other = server
      · subst here
        simp only [afterwards, if_neg fresh, List.mem_cons_self, ↓reduceIte, Function.update_self]
      · simp only [afterwards, List.mem_cons, here, false_or, Function.update_of_ne here]
    have answers' (other) (member : other ∈ servers) (fuel : Nat) :
        serve fuel (Function.update tables server (after server) other) message [] =
          .done (after other, payloads) := by
      rw [elsewhere other member]
      exact answers other (List.mem_cons_of_mem _ member) fuel
    rw [List.map_cons, List.flatMap_cons, ← after']
    constructor
    · intro handled
      cases handled with
      | cons served later =>
        rw [answers server List.mem_cons_self] at served
        obtain ⟨rfl, rfl⟩ := Prod.mk.inj (Outcome.done.inj served)
        obtain ⟨rfl, rfl⟩ := (ih nodup answers').mp later
        exact ⟨rfl, rfl⟩
    · rintro ⟨rfl, rfl⟩
      exact .cons (answers server List.mem_cons_self 0) ((ih nodup answers').mpr ⟨rfl, rfl⟩)

section Call

variable {sha1 : List UInt8 → Digest} {live : SockAddr → Bool} {client : Client} {fuel : Nat}
  {operation : Operation} {servers : NodeList} {tables tables' after : SockAddr → Htable}
  {payloads : List (List UInt8)} {call : Exchange} {answer : Answer}

theorem perform_contacted {env : Env} (allowed : operation.Allowed)
    (contacted : Contacted sha1 client (operation.needed client.args) operation.key fuel env servers)
    (inbox : Inbox) :
    ∃ result : Answer, Cluster.perform sha1 client operation fuel env inbox =
      .done (result.1, result.2, servers.map fun server => ⟨server.addr, operation.message⟩) := by
  cases operation with
  | get key =>
    have contacted : Contacted sha1 client client.args.R key fuel env servers := contacted
    simp only [Cluster.perform, networkGet_contacted _ contacted, Outcome.bind_done]
    exact ⟨⟨_, _⟩, rfl⟩
  | put key value =>
    have contacted : Contacted sha1 client client.args.W key fuel env servers := contacted
    simp only [Cluster.perform, networkPut_contacted _ allowed.2.2 contacted, Outcome.bind_done]
    exact ⟨⟨_, _⟩, rfl⟩

theorem filter_sent (live : SockAddr → Bool) (servers : NodeList) (message : List UInt8) :
    (servers.map fun server => ⟨server.addr, message⟩).filter
      (fun datagram : Datagram => live datagram.peer) =
        ((servers.map Node.addr).filter live).map fun server => ⟨server, message⟩ := by
  rw [List.filter_map, List.filter_map, List.map_map]
  rfl

/-- The servers that are up answer alike, so all that is open is the order. -/
theorem Carried.heard (carried : Carried sha1 live client fuel call tables operation answer tables')
    (allowed : operation.Allowed)
    (contacted : Contacted sha1 client (operation.needed client.args) operation.key fuel
      ⟨true, [], []⟩ servers)
    (answers : ∀ server ∈ (servers.map Node.addr).filter live, ∀ fuel,
      serve fuel (tables server) operation.message [] = .done (after server, payloads)) :
    tables' = afterwards tables after ((servers.map Node.addr).filter live) ∧
      ∃ up : List SockAddr, up.Perm ((servers.map Node.addr).filter live) ∧
        call.inbox.Perm (up.flatMap fun server => payloads.map fun payload => some ⟨server, payload⟩) := by
  obtain ⟨env, sent, order, replies, done, sent_perm, handled, arrived⟩ := carried
  obtain ⟨_, ended⟩ := perform_contacted allowed contacted call.inbox
  rw [env, ended, Outcome.done.injEq, Prod.mk.injEq, Prod.mk.injEq] at done
  obtain ⟨_, _, rfl⟩ := done
  rw [filter_sent] at sent_perm
  obtain ⟨up, rfl, up_perm⟩ := (congrFun₂ (List.eq_map_comp_perm _) _ _).mpr sent_perm
  have nodup : up.Nodup := up_perm.nodup_iff.mpr (contacted.nodup.filter _)
  obtain ⟨rfl, rfl⟩ := (handled_iff nodup fun server member =>
    answers server (up_perm.mem_iff.mp member)).mp handled
  refine ⟨?_, up, up_perm, ?_⟩
  · funext server
    simp only [afterwards, up_perm.mem_iff]
  · rw [List.map_flatMap] at arrived
    simpa only [List.map_map, Function.comp_def] using arrived

theorem exists_carried (allowed : operation.Allowed)
    (contacted : Contacted sha1 client (operation.needed client.args) operation.key fuel
      ⟨true, [], []⟩ servers)
    (answers : ∀ server ∈ (servers.map Node.addr).filter live, ∀ fuel,
      serve fuel (tables server) operation.message [] = .done (after server, payloads)) :
    ∃ call answer tables', Carried sha1 live client fuel call tables operation answer tables' := by
  have handled := (handled_iff (contacted.nodup.filter live) answers).mpr ⟨rfl, rfl⟩
  obtain ⟨answer, ended⟩ := perform_contacted allowed contacted _
  refine ⟨⟨⟨true, [], []⟩, _⟩, answer, _, rfl, _, _, _, ended, ?_, handled, .refl _⟩
  rw [filter_sent]

/-- One answer from each of the servers comes in some order. -/
theorem answered_of_perm {inbox : Inbox} {payload : List UInt8} {up : List SockAddr}
    (arrived : inbox.Perm (up.flatMap fun server =>
      [payload].map fun payload => some ⟨server, payload⟩)) :
    ∃ up' : List SockAddr, up'.Perm up ∧ inbox = Cluster.answered payload up' := by
  have arrived : inbox.Perm (up.map fun server => some ⟨server, payload⟩) := by
    rw [List.map_eq_flatMap]
    simpa only [List.map_cons, List.map_nil] using arrived
  obtain ⟨up', inbox, perm⟩ := (congrFun₂ (List.eq_map_comp_perm _) _ _).mpr arrived
  exact ⟨up', perm, inbox⟩

end Call

section Replicated

variable {sha1 : List UInt8 → Digest} {live : SockAddr → Bool} {client : Client} {fuel : Nat}
  {replicas : CString → List SockAddr} {keys : Set CString} {tables : SockAddr → Htable}
  {m : FiniteMap} {operation : Operation}

theorem Operation.Allowed.short (allowed : operation.Allowed) :
    operation.key.strlen ≤ maxMsgElemSize := by
  cases operation with
  | get => exact allowed.2
  | put => exact allowed.2.1

theorem Served.contacted (served : Served sha1 live replicas keys client fuel operation) :
    ∃ servers, Contacted sha1 client (operation.needed client.args) operation.key fuel
      ⟨true, [], []⟩ servers ∧ servers.map Node.addr = replicas operation.key := by
  obtain ⟨servers, found, same⟩ := served.found
  have enough := served.enough.trans (List.length_filter_le live (replicas operation.key))
  rw [← same, List.length_map] at enough
  exact ⟨servers, ⟨served.allowed.short, rfl, rfl, found, enough, rfl⟩, same⟩

theorem Served.reached (served : Served sha1 live replicas keys client fuel operation)
    {servers : NodeList} {env : Env}
    (contacted : Contacted sha1 client (operation.needed client.args) operation.key fuel env servers)
    (same : servers.map Node.addr = replicas operation.key) {up : List SockAddr}
    (perm : up.Perm ((servers.map Node.addr).filter live)) :
    up.Nodup ∧ up ⊆ servers.map Node.addr ∧ (operation.needed client.args).toNat ≤ up.length := by
  refine ⟨perm.nodup_iff.mpr (contacted.nodup.filter _), fun server member =>
    List.mem_of_mem_filter (perm.mem_iff.mp member), ?_⟩
  rw [perm.length_eq, same]
  exact served.enough

theorem replicated_empty :
    Replicated live replicas keys (fun _ => Htable.empty htableSize) FiniteMap.empty where
  size _ := Htable.size_empty _
  wellFormed _ := Htable.wellFormed_empty (by decide)
  keysIn _ := Htable.keysIn_empty _ _
  held _ _ _ _ := Htable.binding_empty ..
  short key value found := by simp [FiniteMap.empty] at found

variable (apart : ∀ k ∈ keys, ∀ k' ∈ keys, k < k' →
  hashFunction k htableSize ≠ hashFunction k' htableSize)

include apart

theorem Replicated.unshadowed (replicated : Replicated live replicas keys tables m)
    {key : CString} (known : key ∈ keys) (server : SockAddr) : (tables server).Unshadowed key := by
  refine Htable.unshadowed_of_keysIn (replicated.wellFormed server).placed
    (replicated.keysIn server) ?_
  rw [replicated.size]
  exact apart key known

theorem Replicated.put (replicated : Replicated live replicas keys tables m)
    {key value : CString} (known : key ∈ keys) (fits : value.strlen ≤ maxMsgElemSize) :
    Replicated live replicas keys
      (afterwards tables (fun server => (tables server).put key value) ((replicas key).filter live))
      (Function.update m key (some value)) := by
  constructor
  · intro server
    rw [afterwards]
    split
    · rw [Htable.size_put, replicated.size]
    · exact replicated.size server
  · intro server
    rw [afterwards]
    split
    · exact (replicated.wellFormed server).put key value
    · exact replicated.wellFormed server
  · intro server
    rw [afterwards]
    split
    · exact (replicated.keysIn server).put (replicated.wellFormed server).positive value known
    · exact replicated.keysIn server
  · intro other known' server member
    rw [afterwards, Function.update_apply]
    split
    next =>
      rw [Htable.binding_put (replicated.wellFormed server).positive
        (replicated.unshadowed apart known server), replicated.held other known' server member]
    next elsewhere =>
      have apart' : other ≠ key := fun same => elsewhere (same ▸ member)
      rw [if_neg apart', replicated.held other known' server member]
  · intro other stored found
    rw [Function.update_apply] at found
    split at found
    · exact Option.some.inj found ▸ fits
    · exact replicated.short other stored found

/-- A server that is up answers for the map. -/
theorem Replicated.serve (replicated : Replicated live replicas keys tables m)
    (served : Served sha1 live replicas keys client fuel operation) {server : SockAddr}
    (member : server ∈ (replicas operation.key).filter live) (turns : Nat) :
    serve turns (tables server) operation.message [] =
      .done (operation.table (tables server), operation.payloads m) := by
  cases operation with
  | put key value =>
    obtain ⟨named, short, fits⟩ := served.allowed
    have room := served.room
    rw [Operation.message, length_putMessage] at room
    exact Cluster.serve_put named short fits room _ _
  | get key =>
    obtain ⟨named, short⟩ := served.allowed
    have known : key ∈ keys := served.known
    have looked : (tables server).lookup key = m key := by
      rw [Htable.lookup_eq_binding (replicated.unshadowed apart known server)]
      exact replicated.held key known server member
    cases found : m key with
    | some value =>
      rw [Operation.payloads, found]
      exact Cluster.serve_get named short (looked.trans found) _
    | none =>
      have read := receiveRequest_getMessage short
      rw [if_neg named] at read
      simp only [PpsDht.serve, Operation.message, read, serveGetRequest, getHtableValue_nil, looked,
        found, Operation.table, Operation.payloads, Option.map_none, Option.toList_none]

/-- A call over a network that loses nothing is answered as the map answers it. -/
theorem Replicated.sound {call : Exchange} {answer : Answer} {tables' : SockAddr → Htable}
    (replicated : Replicated live replicas keys tables m)
    (served : Served sha1 live replicas keys client fuel operation)
    (carried : Carried sha1 live client fuel call tables operation answer tables') :
    answer = (mapAnswer m operation).1 ∧
      Replicated live replicas keys tables' (mapAnswer m operation).2 := by
  obtain ⟨servers, contacted, same⟩ := served.contacted
  obtain ⟨rfl, up, perm, arrived⟩ := carried.heard served.allowed contacted
    fun server member => replicated.serve apart served (same ▸ member)
  have obtains := carried.exchange
  rw [carried.env] at obtains
  obtain ⟨sent, _, _, done, _⟩ := obtains
  cases operation with
  | put key value =>
    obtain ⟨up', perm', inbox⟩ := answered_of_perm arrived
    obtain ⟨nodup, within, enough⟩ := served.reached contacted same (perm'.trans perm)
    have fits : value.strlen ≤ maxMsgElemSize := served.allowed.2.2
    have contacted : Contacted sha1 client client.args.W key fuel ⟨true, [], []⟩ servers := contacted
    rw [inbox, Cluster.perform_put_answered contacted fits served.some nodup within enough] at done
    simp only [Outcome.done.injEq, Prod.mk.injEq] at done
    refine ⟨Prod.ext done.1.symm done.2.1.symm, ?_⟩
    rw [same]
    exact replicated.put apart served.known fits
  | get key =>
    have kept : (fun server => (Operation.get key).table (tables server)) = tables := rfl
    rw [kept, afterwards_self]
    have contacted' : Contacted sha1 client client.args.R key fuel ⟨true, [], []⟩ servers := contacted
    cases found : m key with
    | some value =>
      rw [Operation.payloads, found] at arrived
      obtain ⟨up', perm', inbox⟩ := answered_of_perm arrived
      obtain ⟨nodup, within, enough⟩ := served.reached contacted same (perm'.trans perm)
      rw [inbox, Cluster.perform_get_answered contacted' (replicated.short key value found)
        served.some nodup within enough] at done
      simp only [Outcome.done.injEq, Prod.mk.injEq] at done
      simp only [mapAnswer, found]
      exact ⟨Prod.ext done.1.symm done.2.1.symm, replicated⟩
    | none =>
      rw [Operation.payloads, found, Option.map_none, Option.toList_none,
        List.flatMap_eq_nil_iff.mpr fun _ _ => List.map_nil] at arrived
      simp only [List.perm_nil.mp arrived, Cluster.perform, networkGet_contacted _ contacted',
        Outcome.bind_done, getLoop_nil, Outcome.done.injEq, Prod.mk.injEq] at done
      simp only [mapAnswer, found]
      exact ⟨Prod.ext done.1.symm done.2.1.symm, replicated⟩

theorem Replicated.answers (replicated : Replicated live replicas keys tables m)
    (served : Served sha1 live replicas keys client fuel operation) :
    ∃ call answer tables', Carried sha1 live client fuel call tables operation answer tables' := by
  obtain ⟨servers, contacted, same⟩ := served.contacted
  exact exists_carried served.allowed contacted
    fun server member => replicated.serve apart served (same ▸ member)

theorem Replicated.refines :
    Interaction.Refines (Carried sha1 live client fuel)
      (Served sha1 live replicas keys client fuel) mapAnswer (Replicated live replicas keys) where
  sound replicated served carried := replicated.sound apart served carried
  answers replicated served := replicated.answers apart served

end Replicated

section Session

variable {sha1 : List UInt8 → Digest} {live : SockAddr → Bool} {replicas : CString → List SockAddr}
  {keys : Set CString} {tables : SockAddr → Htable} {m : FiniteMap}

/-- The program is accepted, and the network serves all that it can ask for. -/
def Ready (sha1 : List UInt8 → Digest) (live : SockAddr → Bool) (replicas : CString → List SockAddr)
    (keys : Set CString) (invocation : Invocation) (command : Command) : Prop :=
  ∃ client, invocation.Starts client command ∧
    command.Within (Served sha1 live replicas keys client invocation.fuel)

theorem Invocation.Starts.unique {invocation : Invocation} {client client' : Client}
    {command command' : Command} (starts : invocation.Starts client command)
    (again : invocation.Starts client' command') : client = client' ∧ command = command' := by
  obtain ⟨rest, left, accepted, asked⟩ := starts
  obtain ⟨rest', left', accepted', asked'⟩ := again
  rw [accepted] at accepted'
  simp only [Outcome.done.injEq, Prod.mk.injEq, true_and] at accepted'
  obtain ⟨rfl, rfl, rfl⟩ := accepted'
  exact ⟨rfl, Option.some.inj (asked.symm.trans asked')⟩

instance : Nonempty Exchange := ⟨⟨⟨true, [], []⟩, []⟩⟩

theorem Replicated.session (apart : ∀ k ∈ keys, ∀ k' ∈ keys, k < k' →
      hashFunction k htableSize ≠ hashFunction k' htableSize) {invocations : List Invocation} {commands : List Command}
    (ready : List.Forall₂ (Ready sha1 live replicas keys) invocations commands)
    (replicated : Replicated live replicas keys tables m) (texts : List (List UInt8)) :
    Session sha1 live tables invocations texts ↔ texts = meanings m commands := by
  induction ready generalizing tables m texts with
  | nil =>
    constructor
    · intro session
      cases session
      rfl
    · rintro rfl
      exact .nil tables
  | @cons invocation command invocations commands first _ ih =>
    obtain ⟨client, starts, within⟩ := first
    have ends := Command.calls_against (m := m) within
    have refines : Interaction.Refines (Carried sha1 live client invocation.fuel)
        (Served sha1 live replicas keys client invocation.fuel) mapAnswer
        (Replicated live replicas keys) := Replicated.refines apart
    -- the labels of a run are the calls that `main` meets
    have given (call : Exchange) (tables : SockAddr → Htable) (operation : Operation)
        (answer : Answer) (tables' : SockAddr → Htable)
        (carried : Carried sha1 live client invocation.fuel call tables operation answer tables') :
        answerOf sha1 client invocation.fuel call operation = .done answer := by
      obtain ⟨_, _, _, done, _⟩ := carried.exchange
      rw [answerOf, done]
      rfl
    constructor
    · intro session
      cases session with
      | cons starts' runs printed later =>
        obtain ⟨rfl, rfl⟩ := starts.unique starts'
        obtain ⟨result, replicated'⟩ := runs.simulates refines replicated (Command.within_calls within)
        rw [starts.main_eq_run, runs.run_eq given] at printed
        rw [ends] at result replicated'
        obtain rfl := Outcome.done.inj printed
        obtain rfl := Outcome.done.inj result
        rw [(ih replicated' _).mp later, meanings]
    · rintro rfl
      obtain ⟨calls, tables', runs⟩ :=
        refines.exists_runs replicated (Command.within_calls within) (congrArg Prod.fst ends)
      obtain ⟨_, replicated'⟩ := runs.simulates refines replicated (Command.within_calls within)
      rw [ends] at replicated'
      exact .cons starts runs ((starts.main_eq_run calls).trans (runs.run_eq given))
        ((ih replicated' _).mpr rfl)

/-- Programs run one after another print what their commands mean on a map, and nothing else is
possible: over a network that loses nothing, whichever servers are down, as long as enough of
each key's servers are up, and whatever order the datagrams are handled and received in. -/
theorem session_refines_map (apart : ∀ k ∈ keys, ∀ k' ∈ keys, k < k' →
      hashFunction k htableSize ≠ hashFunction k' htableSize)
    {invocations : List Invocation} {commands : List Command}
    (ready : List.Forall₂ (Ready sha1 live replicas keys) invocations commands)
    (texts : List (List UInt8)) :
    Session sha1 live (fun _ => Htable.empty htableSize) invocations texts ↔
      texts = meanings FiniteMap.empty commands :=
  Replicated.session apart ready replicated_empty texts

end Session

/-! Two servers, of which the second is down. -/

def firstUp (server : SockAddr) : Bool := decide (server = ⟨1, 0⟩)

def keyK : CString := .ofMemory [107]

def keyL : CString := .ofMemory [108]

/-- `-n 2`, and the number of servers to wait for. -/
def onPair (program : Program) (argv : List CString) : Invocation :=
  ⟨program, .insertion, some pair, argv, UInt64.ofNat argv.length, pairClient, [], 3⟩

/-- `pps-client-put -n 2 -w 1 k b` -/
def putB : Invocation :=
  onPair .put [.ofMemory [112], .ofMemory [45, 110], .ofMemory [50], .ofMemory [45, 119],
    .ofMemory [49], keyK, .ofMemory [98]]

/-- `pps-client-cat -n 2 -w 1 -r 1 k k l` -/
def catTwice : Invocation :=
  onPair .cat [.ofMemory [99], .ofMemory [45, 110], .ofMemory [50], .ofMemory [45, 119],
    .ofMemory [49], .ofMemory [45, 114], .ofMemory [49], keyK, keyK, keyL]

/-- `pps-client-get -n 2 -r 1 l` -/
def getL : Invocation :=
  onPair .get [.ofMemory [103], .ofMemory [45, 110], .ofMemory [50], .ofMemory [45, 114],
    .ofMemory [49], keyL]

theorem pair_served {name : CString} {W R : UInt64} {operation : Operation}
    (known : operation.key ∈ ({keyK, keyL} : Set CString)) (allowed : operation.Allowed)
    (room : operation.message.length < maxMsgSize) (one : operation.needed ⟨2, W, R⟩ = 1) :
    Served (fun _ => Digest.ofFirst 7) firstUp (fun _ => [⟨1, 0⟩, ⟨2, 0⟩]) {keyK, keyL}
      ⟨name, pair, ⟨2, W, R⟩⟩ 3 operation where
  known := known
  allowed := allowed
  room := room
  found := ⟨pair, by rfl, rfl⟩
  some := by simp [one]
  enough := by simp [one, firstUp]

theorem session_refines_map_pair :
    Session (fun _ => Digest.ofFirst 7) firstUp (fun _ => Htable.empty htableSize)
      [putB, catTwice, getL] [okMark, okMark, okLine [98, 98]] := by
  have apart : ∀ k ∈ ({keyK, keyL} : Set CString), ∀ k' ∈ ({keyK, keyL} : Set CString), k < k' →
      hashFunction k htableSize ≠ hashFunction k' htableSize := by
    rintro _ (rfl | rfl) _ (rfl | rfl) below <;> exact absurd below (by decide)
  have ready : List.Forall₂
      (Ready (fun _ => Digest.ofFirst 7) firstUp (fun _ => [⟨1, 0⟩, ⟨2, 0⟩]) {keyK, keyL})
      [putB, catTwice, getL] [.put keyK (.ofMemory [98]), .cat [keyK, keyK] keyL, .get keyL] := by
    refine .cons ⟨⟨.ofMemory [112], pair, ⟨2, 1, 2⟩⟩,
        ⟨[keyK, .ofMemory [98]], [], by decide +kernel, rfl⟩, by decide, fun _ => ?_⟩
      (.cons ⟨⟨.ofMemory [99], pair, ⟨2, 1, 1⟩⟩,
        ⟨[keyK, keyK, keyL], [], by decide +kernel, rfl⟩, fun key member => ?_, fun value short => ?_⟩
      (.cons ⟨⟨.ofMemory [103], pair, ⟨2, 2, 1⟩⟩,
        ⟨[keyL], [], by decide +kernel, rfl⟩, by decide, ?_⟩ .nil))
    · exact pair_served (.inl rfl) (by decide) (by decide) rfl
    · obtain rfl : key = keyK := by simpa using member
      exact pair_served (.inl rfl) (by decide) (by decide) rfl
    · have length : keyL.strlen = 1 := rfl
      refine pair_served (.inr rfl) ⟨by decide, by decide, short.le⟩ ?_ rfl
      rw [Operation.message, length_putMessage, length, maxMsgSize]
      rw [maxMsgElemSize] at short ⊢
      omega
    · exact pair_served (.inr rfl) (by decide) (by decide) rfl
  exact (session_refines_map apart ready _).mpr (by decide +kernel)

end PpsDht
