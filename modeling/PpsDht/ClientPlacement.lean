import PpsDht.Client
import PpsDht.RingPlacement
import PpsDht.ServerFile

/-! From the server file to the replicas of a key. Two clients whose files name the same
servers in different orders ask the same servers, in the same order. -/
namespace PpsDht

open CLib Loop FirstSeen

/-! A file that was read although allocations can fail is read in the same way when none
does. -/

theorem addNodes_nil {sha1 : List UInt8 → Digest} {ip : CString} {port : UInt16}
    {remaining i : Nat} {list out : NodeList} {a left : Alloc}
    (added : addNodes sha1 ip port remaining i list a = (some out, left)) :
    addNodes sha1 ip port remaining i list [] = (some out, []) := by
  induction remaining generalizing i list a with
  | zero =>
    obtain ⟨same, _⟩ := Prod.mk.inj added
    rw [addNodes, same]
  | succ remaining ih =>
    rw [addNodes] at added ⊢
    split at added
    next node made =>
      by_cases full : sizeMax / sizeofNode < list.length + 1
      · simp [nodeListAdd, full] at added
      · simp only [nodeListAdd, if_neg full, malloc_nil] at added ⊢
        rcases allocated : malloc a with ⟨_ | _, b⟩ <;> simp only [allocated] at added
        · simp at added
        · exact ih added
    · simp at added

/-- The state of the reading loop when no allocation fails. -/
def unbounded (s : File × NodeList × Alloc) : File × NodeList × Alloc := (s.1, s.2.1, [])

theorem readStep_next_nil {sha1 : List UInt8 → Digest} (s s' : File × NodeList × Alloc)
    (next : readStep sha1 s = .next s') : readStep sha1 (unbounded s) = .next (unbounded s') := by
  obtain ⟨file, list, a⟩ := s
  change readStep sha1 (file, list, []) = .next (s'.1, s'.2.1, [])
  simp only [readStep] at next ⊢
  split at next
  next reads =>
    rw [if_pos reads]
    rcases scanned : fscanf file with ⟨_ | _ | ⟨ip, port, nbNodes⟩, rest⟩ <;>
      simp only [scanned] at next ⊢
    · obtain rfl := Step.next.inj next
      rfl
    · contradiction
    · split at next
      · contradiction
      next range =>
        rw [if_neg range]
        split at next
        · contradiction
        next added =>
          obtain rfl := Step.next.inj next
          simp only [addNodes_nil added]
  · contradiction

theorem readStep_done_nil {sha1 : List UInt8 → Digest} {list : NodeList} {left : Alloc}
    (s : File × NodeList × Alloc) (done : readStep sha1 s = .done (some list, left)) :
    readStep sha1 (unbounded s) = .done (some list, []) := by
  obtain ⟨file, list', a⟩ := s
  change readStep sha1 (file, list', []) = .done (some list, [])
  simp only [readStep] at done ⊢
  split at done
  · rcases scanned : fscanf file with ⟨_ | _ | ⟨ip, port, nbNodes⟩, rest⟩ <;>
      simp only [scanned] at done
    · contradiction
    · simp at done
    · split at done
      · simp at done
      · split at done
        · simp at done
        · contradiction
  next ended =>
    rw [if_neg ended]
    simp only [Step.done.injEq, Prod.mk.injEq] at done
    rw [done.1]

theorem getNodes_nil {sha1 : List UInt8 → Digest} {file : File} {fuel : Nat} {list : NodeList}
    {a left : Alloc} (read : getNodes sha1 (some file) fuel a = .done (some list, left)) :
    getNodes sha1 (some file) fuel [] = .done (some list, []) := by
  rw [getNodes_eq]
  simp only [getNodes] at read
  split at read
  · simp at read
  · exact iterate_simulates unbounded readStep_next_nil readStep_done_nil read

/-! What a file says. -/

theorem Spells.unique {words : List (List UInt8)} {triples others : List Triple}
    (spelled : Spells words triples) (again : Spells words others) : triples = others := by
  induction spelled generalizing others with
  | nil =>
    cases again
    rfl
  | @cons t port count words triples address portNumber countNumber later ih =>
    generalize cut : t.ip.bytes :: port :: count :: words = all at again
    cases again with
    | nil => contradiction
    | @cons t' _ _ _ _ address' portNumber' countNumber' later' =>
      simp only [List.cons.injEq] at cut
      obtain ⟨bytes, rfl, rfl, rfl⟩ := cut
      obtain rfl := ih later'
      have ip := CString.ext bytes
      have port : t.port = t'.port :=
        UInt16.toNat_inj.mp (Int.ofNat_inj.mp (Option.some.inj (portNumber.symm.trans portNumber')))
      have count := Int.ofNat_inj.mp (Option.some.inj (countNumber.symm.trans countNumber'))
      have address : t.address = t'.address :=
        Option.some.inj (address.symm.trans (ip ▸ address'))
      cases t
      cases t'
      simp_all only

theorem Spells.address {words : List (List UInt8)} {triples : List Triple}
    (spelled : Spells words triples) : ∀ t ∈ triples, inetPton t.ip = some t.address := by
  induction spelled with
  | nil => simp
  | cons t address _ _ _ ih => exact List.forall_mem_cons.mpr ⟨address, ih⟩

def Triple.addr (t : Triple) : SockAddr := ⟨htons t.port, t.address⟩

/-- A list that was read from a file is what the file says, whatever the allocator did. -/
theorem nodes_of_spells {sha1 : List UInt8 → Digest} {text : List UInt8} {fails : Bool}
    {fuel : Nat} {a left : Alloc} {list : NodeList} {triples : List Triple}
    (spelled : Spells (Scan.words text) triples)
    (read : getNodes sha1 (some ⟨text, fails, false⟩) fuel a = .done (some list, left)) :
    list = triples.flatMap (Triple.nodes sha1) := by
  have start : Reading ⟨text, fails, false⟩ [] := ⟨by simp, Nat.zero_le _⟩
  have ended := getNodes_nil read
  rw [getNodes_eq] at ended
  obtain ⟨records, found, _, small, rfl⟩ := read_returned sha1 start ended
  rw [List.length_nil, Nat.zero_add] at small
  obtain ⟨others, again, clean⟩ := records_of_spells spelled rfl
  obtain rfl := found.unique again
  rw [spelled.unique (spells_of_records found clean small), List.nil_append, List.flatMap_map]
  rfl

def StartedWith (sha1 : List UInt8 → Digest) (text : List UInt8) (client : Client) : Prop :=
  ∃ fails fuel a nodes left q init b rest left',
    getNodes sha1 (some ⟨text, fails, false⟩) fuel a = .done (nodes, left) ∧
    clientInit q nodes init b = .done (.none, client, rest, left')

theorem StartedWith.ringInit {sha1 : List UInt8 → Digest} {text : List UInt8} {client : Client}
    {triples : List Triple} (started : StartedWith sha1 text client)
    (spelled : Spells (Scan.words text) triples) :
    RingInit (triples.flatMap (Triple.nodes sha1)) client.server := by
  obtain ⟨fails, fuel, a, nodes, left, q, init, b, rest, left', read, accepted⟩ := started
  obtain ⟨list, rfl, server⟩ := (clientInit_accepted accepted).server
  rw [server, nodes_of_spells spelled read]
  exact q.ringInit _

def Locates (sha1 : List UInt8 → Digest) (client : Client) (key : CString)
    (servers : List SockAddr) : Prop :=
  ∃ list, RingReturns sha1 client.server client.args.N.toNat key list ∧
    list.map Node.addr = servers

theorem TiesCovered.perm {first second : NodeList} (covered : TiesCovered first)
    (perm : first.Perm second) : TiesCovered second := by
  intro a ha b hb tie apart
  obtain ⟨c, hc, hidden⟩ :=
    covered a (perm.mem_iff.mpr ha) b (perm.mem_iff.mpr hb) tie apart
  exact ⟨c, perm.mem_iff.mp hc, hidden⟩

theorem RingReturns.of_perm {sha1 : List UInt8 → Digest} {ring ring' list : NodeList}
    {wanted : Nat} {key : CString} (returns : RingReturns sha1 ring wanted key list)
    (perm : ring.Perm ring') : ∃ list', RingReturns sha1 ring' wanted key list' := by
  obtain ⟨⟨node, member, behind⟩, enough, _⟩ := (ringReturns_iff ..).mp returns
  rw [distinct_perm perm] at enough
  exact ⟨_, (ringReturns_iff ..).mpr ⟨⟨node, perm.mem_iff.mp member, behind⟩, enough, rfl⟩⟩

theorem Locates.of_reordered {sha1 : List UInt8 → Digest} {nodes nodes' : NodeList}
    (perm : nodes.Perm nodes') (covered : TiesCovered nodes) {client client' : Client}
    (init : RingInit nodes client.server) (init' : RingInit nodes' client'.server)
    (same : client.args.N = client'.args.N) {key : CString} {servers : List SockAddr}
    (locates : Locates sha1 client key servers) : Locates sha1 client' key servers := by
  obtain ⟨list, returns, rfl⟩ := locates
  have rings := init.perm.trans (perm.trans init'.perm.symm)
  obtain ⟨list', returns'⟩ := returns.of_perm rings
  have agree := covered.agrees perm _ _ init init' _ _ _ _ _ returns returns'
  exact ⟨list', same ▸ returns', agree.symm⟩

/-- Two files that say the same in different orders: the clients started with them, each with
its own options, sorting function and failing allocations, ask the same servers for every
key, when each tie between two servers is covered. -/
theorem reordered_files_agree {sha1 : List UInt8 → Digest} {triples triples' : List Triple}
    (perm : triples.Perm triples') (covered : TiesCovered (triples.flatMap (Triple.nodes sha1)))
    {text text' : List UInt8} (spelled : Spells (Scan.words text) triples)
    (spelled' : Spells (Scan.words text') triples') {client client' : Client}
    (started : StartedWith sha1 text client) (started' : StartedWith sha1 text' client')
    (same : client.args.N = client'.args.N) (key : CString) (servers : List SockAddr) :
    Locates sha1 client key servers ↔ Locates sha1 client' key servers := by
  have nodes := perm.flatMap_right (Triple.nodes sha1)
  have init := started.ringInit spelled
  have init' := started'.ringInit spelled'
  constructor
  · exact Locates.of_reordered nodes covered init init' same
  · exact Locates.of_reordered nodes.symm (covered.perm nodes) init' init same.symm

/-- The first byte of the digest is the one at place 8, the port's in the files below. -/
def portDigest (bytes : List UInt8) : Digest := Digest.ofFirst (bytes.getD 8 0)

def triple (port : UInt16) : Triple := ⟨.ofMemory [49, 46, 49, 46, 49, 46, 49], 16843009, port, 1⟩

/-- `1.1.1.1 1 1` and `1.1.1.1 2 1` -/
def oneTwo : List UInt8 :=
  [49, 46, 49, 46, 49, 46, 49, 32, 49, 32, 49, 10, 49, 46, 49, 46, 49, 46, 49, 32, 50, 32, 49, 10]

def twoOne : List UInt8 := oneTwo.drop 12 ++ oneTwo.take 12

def nodesOneTwo : NodeList := [triple 1, triple 2].flatMap (Triple.nodes portDigest)

def getTwoAs (name : CString) : ClientInitArgs :=
  { getTwo with argv := name :: getTwo.argv.tail }

def clientAs (name : CString) : Client := ⟨name, nodesOneTwo, ⟨2, 2, 2⟩⟩

theorem spelled_oneTwo : Spells (Scan.words oneTwo) [triple 1, triple 2] := by
  have cut : Scan.words oneTwo =
      [(triple 1).ip.bytes, [49], [49], (triple 2).ip.bytes, [50], [49]] := by decide +kernel
  rw [cut]
  exact .cons _ (by decide) (by decide) (by decide)
    (.cons _ (by decide) (by decide) (by decide) .nil)

theorem spelled_twoOne : Spells (Scan.words twoOne) [triple 2, triple 1] := by
  have cut : Scan.words twoOne =
      [(triple 2).ip.bytes, [50], [49], (triple 1).ip.bytes, [49], [49]] := by decide +kernel
  rw [cut]
  exact .cons _ (by decide) (by decide) (by decide)
    (.cons _ (by decide) (by decide) (by decide) .nil)

theorem started_oneTwo : StartedWith portDigest oneTwo (clientAs (.ofMemory [103])) := by
  refine ⟨false, 5, [], some nodesOneTwo, [], .insertion, getTwoAs (.ofMemory [103]), [],
    [⟨[107], by decide⟩], [], ?_, ?_⟩ <;> decide +kernel

theorem started_twoOne : StartedWith portDigest twoOne (clientAs (.ofMemory [112])) := by
  refine ⟨false, 5, [], some nodesOneTwo.reverse, [], .insertion, getTwoAs (.ofMemory [112]), [],
    [⟨[107], by decide⟩], [], ?_, ?_⟩ <;> decide +kernel

theorem reordered_files_agree_two :
    Locates portDigest (clientAs (.ofMemory [103])) (.ofMemory [107])
        [(triple 1).addr, (triple 2).addr] ↔
      Locates portDigest (clientAs (.ofMemory [112])) (.ofMemory [107])
        [(triple 1).addr, (triple 2).addr] :=
  reordered_files_agree (List.Perm.swap _ _ _) (by unfold TiesCovered; decide +kernel)
    spelled_oneTwo spelled_twoOne started_oneTwo started_twoOne rfl _ _

end PpsDht
