import PpsDht.AddressText
import PpsDht.ClientPlacement
import PpsDht.Lib.Code

/-! What `pps-list-nodes` tells. A line is read back as an address, a port, a digest and a
state; the nodes listed are those of the server file, and the ones said to be alive are those
whose server was heard. -/
namespace PpsDht

open CLib Loop Code

/-! The text of a line. -/

structure Line where
  address : UInt32
  port : UInt16
  sha : Digest
  alive : Bool
  deriving DecidableEq

namespace Line

/-- `") OK\n"` or `") FAIL\n"` -/
def state (alive : Bool) : List UInt8 :=
  if alive then [41, 32, 79, 75, 10] else [41, 32, 70, 65, 73, 76, 10]

def text (line : Line) : List UInt8 :=
  (inetNtop line.address ++ [32]) ++ ((Decimal.print line.port.toNat ++ [32]) ++
    (([40] ++ printSha line.sha) ++ state line.alive))

def fields (line : Line) : UInt32 × UInt16 × Digest × Bool :=
  (line.address, line.port, line.sha, line.alive)

theorem fields_injective : Function.Injective fields := by
  rintro ⟨_, _, _, _⟩ ⟨_, _, _, _⟩ same
  simp_all [fields]

end Line

theorem mem_inetNtop {address : UInt32} {byte : UInt8} (member : byte ∈ inetNtop address) :
    Decimal.isDigit byte = true ∨ byte = 46 := by
  simp only [inetNtop_eq, List.intercalate, List.intersperse, List.flatten_cons, List.flatten_nil,
    List.mem_append, List.mem_singleton, List.not_mem_nil, or_false] at member
  rcases member with digit | dot | digit | dot | digit | dot | digit
  all_goals first | exact .inr dot | exact .inl (Decimal.print_digits _ _ digit)

theorem inetNtop_injective : Function.Injective inetNtop := by
  intro address address' same
  have nulFree : (0 : UInt8) ∉ inetNtop address := by
    intro member
    exact absurd (mem_inetNtop member) (by decide)
  let ip : CString := ⟨inetNtop address, nulFree⟩
  have one := (inetPton_eq_some_iff ip address).mpr rfl
  have two := (inetPton_eq_some_iff ip address').mpr same
  exact Option.some.inj (one.symm.trans two)

theorem blank_notMem_inetNtop (address : UInt32) : (32 : UInt8) ∉ inetNtop address :=
  fun member => absurd (mem_inetNtop member) (by decide)

theorem hexDigit_injective {m n : Nat} (small : m < 16) (small' : n < 16)
    (same : hexDigit m = hexDigit n) : m = n := by
  have injective : ∀ m < 16, ∀ n < 16, hexDigit m = hexDigit n → m = n := by decide
  exact injective m small n small' same

def hexByte (byte : UInt8) : List UInt8 := [hexDigit (byte.toNat / 16), hexDigit (byte.toNat % 16)]

theorem unambiguous_hexByte : Unambiguous hexByte := by
  refine unambiguous_of_length (n := 2) (fun _ => rfl) fun a b same => ?_
  have bound := a.toNat_lt
  have bound' := b.toNat_lt
  simp only [hexByte, List.cons.injEq, and_true] at same
  have high := hexDigit_injective (by omega) (by omega) same.1
  have low := hexDigit_injective (by omega) (by omega) same.2
  apply UInt8.toNat_inj.mp
  omega

theorem unambiguous_printSha : Unambiguous printSha := by
  apply unambiguous_of_length (n := 2 * shaDigestLength)
  · intro sha
    rw [printSha, List.length_flatMap, ← sha.size]
    simp [Nat.mul_comm]
  · intro sha sha' same
    have bytes := flatMap_injective unambiguous_hexByte (fun _ => List.cons_ne_nil _ _) same
    cases sha
    cases sha'
    congr

theorem unambiguous_state : Unambiguous Line.state := by
  intro a b x y same
  cases a <;> cases b <;> simp [Line.state] at same ⊢

theorem unambiguous_line : Unambiguous Line.text := by
  have address : Unambiguous fun address => inetNtop address ++ [32] :=
    unambiguous_of_terminated blank_notMem_inetNtop inetNtop_injective
  have printed : Function.Injective fun port : UInt16 => Decimal.print port.toNat :=
    fun a b same => UInt16.toNat_inj.mp (Decimal.print_injective same)
  have port : Unambiguous fun port : UInt16 => Decimal.print port.toNat ++ [32] :=
    unambiguous_of_terminated (fun port => blank_notMem_print port.toNat) printed
  have rest : Unambiguous fun fields : Digest × Bool =>
      ([40] ++ printSha fields.1) ++ Line.state fields.2 :=
    (unambiguous_printSha.prepend [40]).append unambiguous_state
  intro a b x y same
  exact Line.fields_injective ((address.append (port.append rest)) a.fields b.fields x y same)

/-! The answers. -/

/-- An answer from the address is among the replies. -/
def heard (same : Nat → SockAddr → Bool) (replies : Nat) (addr : SockAddr) : Bool :=
  (List.range replies).any fun k => same k addr

def marked (same : Nat → SockAddr → Bool) (replies : Nat) (ring : NodeList) : NodeList :=
  markResponsive (heard same replies) ring

theorem markResponsive_marked (same : Nat → SockAddr → Bool) (replies : Nat) (ring : NodeList) :
    markResponsive (same replies) (marked same replies ring) = marked same (replies + 1) ring := by
  simp only [marked, markResponsive, List.map_map]
  apply List.map_congr_left
  intro node _
  have next : heard same (replies + 1) node.addr =
      (heard same replies node.addr || same replies node.addr) := by
    simp [heard, List.range_succ]
  simp only [Function.comp_apply, next]
  cases before : heard same replies node.addr <;> cases now : same replies node.addr <;>
    by_cases silent : node.responsive = 0 <;> simp [now, silent]

theorem replies_marked {i : Nat} {arrivals : Nat → Option Datagram} {same : Nat → SockAddr → Bool}
    {fuel k last : Nat} {ring out : NodeList}
    (ran : iterate (replyStep i arrivals same) fuel (k, marked same k ring) = .done (last, out)) :
    out = marked same last ring := by
  induction fuel generalizing k with
  | zero => contradiction
  | succ fuel ih =>
    by_cases stops : i = 0 ∨ received (arrivals k) ≠ 0
    · rw [iterate_done (replyStep_done _ stops)] at ran
      simp only [Outcome.done.injEq, Prod.mk.injEq] at ran
      obtain ⟨rfl, rfl⟩ := ran
      rfl
    · rw [iterate_next (replyStep_next (by omega) _ (by omega)), markResponsive_marked] at ran
      exact ih ran

/-! The whole output. -/

def Node.line (node : Node) (alive : Bool) : Line :=
  ⟨node.addr.sinAddr, ntohs node.addr.sinPort, node.sha, alive⟩

theorem printNode_eq (node : Node) :
    printNode node = (node.line (decide (node.responsive = 1))).text := by
  rw [printNode, Line.text, Line.state, Node.line, printedPort]
  by_cases alive : node.responsive = 1 <;> simp [alive]

/-- No node has been marked before the answers, as `node_init` leaves it. -/
def Unmarked (ring : NodeList) : Prop := ∀ node ∈ ring, node.responsive = 0

theorem listNodes_finished {q : Qsort} {p : QsortPort} {ring : Option NodeList} {env : Env}
    {arrivals : Nat → Option Datagram} {same : Nat → SockAddr → Bool} {fuel : Nat}
    {listing : Listing} (ran : listNodes q p ring env arrivals same fuel = .done listing)
    (fine : listing.error = .none) :
    ∃ nodes out, ring = some nodes ∧
      iterate (replyStep (q.sort nodes).length arrivals same) fuel (0, q.sort nodes) =
        .done (listing.replies, out) ∧ listing.output = (p.sort out).flatMap printNode := by
  rw [listNodes] at ran
  split at ran
  · split at ran
    · obtain rfl := Outcome.done.inj ran
      contradiction
    next nodes left allocated =>
      obtain rfl := ringAlloc_some allocated
      simp only [ringInit, Option.getD_some] at ran
      split at ran
      · obtain ⟨⟨replies, out⟩, looped, ended⟩ := Outcome.bind_eq_done_iff.mp ran
        obtain rfl := Outcome.done.inj ended
        exact ⟨nodes, out, rfl, looped, rfl⟩
      · obtain rfl := Outcome.done.inj ran
        contradiction
  · obtain rfl := Outcome.done.inj ran
    contradiction

theorem listing_lines {q : Qsort} {p : QsortPort} {ring : NodeList} {env : Env}
    {arrivals : Nat → Option Datagram} {same : Nat → SockAddr → Bool} {fuel : Nat}
    {listing : Listing} (unmarked : Unmarked ring)
    (ran : listNodes q p (some ring) env arrivals same fuel = .done listing)
    (fine : listing.error = .none) :
    ∃ lines : List Line, listing.output = lines.flatMap Line.text ∧
      lines.Perm (ring.map fun node => node.line (heard same listing.replies node.addr)) := by
  obtain ⟨nodes, out, whole, looped, printed⟩ := listNodes_finished ran fine
  obtain rfl := Option.some.inj whole
  have start : marked same 0 (q.sort ring) = q.sort ring := by
    simp [marked, markResponsive, heard]
  rw [← start] at looped
  have out_eq := replies_marked looped
  refine ⟨(p.sort out).map fun node => node.line (decide (node.responsive = 1)), ?_, ?_⟩
  · rw [printed, List.flatMap_map]
    simp only [← printNode_eq]
  · refine ((p.perm out).map _).trans ?_
    rw [out_eq, marked, markResponsive, List.map_map]
    refine List.Perm.trans (List.Perm.of_eq ?_) ((q.perm ring).map _)
    apply List.map_congr_left
    intro node member
    have silent := unmarked node ((q.perm ring).mem_iff.mp member)
    cases answered : heard same listing.replies node.addr <;> simp [answered, silent, Node.line]

def Line.told (line : Line) : (Digest × SockAddr) × Bool :=
  ((line.sha, ⟨htons line.port, line.address⟩), line.alive)

theorem told_line (node : Node) (alive : Bool) :
    (node.line alive).told = (node.identity, alive) := by
  simp only [Line.told, Node.line, Node.identity, show htons (ntohs node.addr.sinPort) =
    node.addr.sinPort from ntohs_htons node.addr.sinPort]

/-- Two listings that read the same are about the same nodes, and agree on which of them were
heard, whatever else differed between the runs. -/
theorem listing_tells {q q' : Qsort} {p p' : QsortPort} {ring ring' : NodeList} {env env' : Env}
    {arrivals arrivals' : Nat → Option Datagram} {same same' : Nat → SockAddr → Bool}
    {fuel fuel' : Nat} {listing listing' : Listing} (unmarked : Unmarked ring)
    (unmarked' : Unmarked ring')
    (ran : listNodes q p (some ring) env arrivals same fuel = .done listing)
    (ran' : listNodes q' p' (some ring') env' arrivals' same' fuel' = .done listing')
    (fine : listing.error = .none) (fine' : listing'.error = .none)
    (alike : listing.output = listing'.output) :
    (ring.map fun node => (node.identity, heard same listing.replies node.addr)).Perm
      (ring'.map fun node => (node.identity, heard same' listing'.replies node.addr)) := by
  obtain ⟨lines, output, perm⟩ := listing_lines unmarked ran fine
  obtain ⟨lines', output', perm'⟩ := listing_lines unmarked' ran' fine'
  have some (line : Line) : line.text ≠ [] := by simp [Line.text]
  rw [output, output'] at alike
  obtain rfl := flatMap_injective unambiguous_line some alike
  have both := (perm.symm.trans perm').map Line.told
  simpa only [List.map_map, Function.comp_def, told_line] using both

/-! From the server file to the output. -/

/-- The line of one virtual node, in the words of the server file. -/
def Triple.line (sha1 : List UInt8 → Digest) (t : Triple) (alive : Bool) (nodeId : Nat) :
    List UInt8 :=
  (t.ip.bytes ++ [32]) ++ ((Decimal.print t.port.toNat ++ [32]) ++
    (([40] ++ printSha (sha1 (nodeInput t.ip t.port (UInt64.ofNat nodeId)).bytes)) ++
      Line.state alive))

/-- A listing has one line for every virtual node of the file, with the address and the port
as the file has them, and says that a node is alive when its server was heard. -/
theorem listing_of_file {sha1 : List UInt8 → Digest} {text : List UInt8} {triples : List Triple}
    (spelled : Spells (Scan.words text) triples) {fails : Bool} {fuel : Nat} {a left : Alloc}
    {nodes : Option NodeList}
    (read : getNodes sha1 (some ⟨text, fails, false⟩) fuel a = .done (nodes, left))
    {q : Qsort} {p : QsortPort} {env : Env} {arrivals : Nat → Option Datagram}
    {same : Nat → SockAddr → Bool} {fuel' : Nat} {listing : Listing}
    (ran : listNodes q p nodes env arrivals same fuel' = .done listing)
    (fine : listing.error = .none) :
    ∃ lines : List (List UInt8), listing.output = lines.flatten ∧
      lines.Perm (triples.flatMap fun t =>
        (List.range' 1 t.count).map (t.line sha1 (heard same listing.replies t.addr))) := by
  obtain ⟨ring, _, rfl, _⟩ := listNodes_finished ran fine
  obtain rfl := nodes_of_spells spelled read
  have unmarked : Unmarked (triples.flatMap (Triple.nodes sha1)) := by
    intro node member
    obtain ⟨t, _, member⟩ := List.mem_flatMap.mp member
    obtain ⟨nodeId, _, rfl⟩ := List.mem_map.mp member
    rfl
  obtain ⟨lines, output, perm⟩ := listing_lines unmarked ran fine
  refine ⟨lines.map Line.text, by rw [output, List.flatMap_def], (perm.map Line.text).trans ?_⟩
  refine List.Perm.of_eq ?_
  rw [List.map_map, List.map_flatMap]
  apply List.flatMap_congr
  intro t member
  have ip := (inetPton_eq_some_iff ..).mp (spelled.address t member)
  rw [Triple.nodes, List.map_map]
  apply List.map_congr_left
  intro nodeId _
  simp only [Function.comp_apply, virtualNode, Node.line, Line.text, Triple.line, Triple.addr,
    ntohs_htons, ip]

/-- The server at port 1 answers, so many times; the one at port 2 does not. -/
def answers (count k : Nat) : Option Datagram :=
  if k < count then some ⟨(triple 1).addr, []⟩ else none

def sameOne (_ : Nat) (addr : SockAddr) : Bool := decide (addr = (triple 1).addr)

def markedOne : NodeList := markResponsive (fun addr => decide (addr = (triple 1).addr)) nodesOneTwo

theorem listed {count : Nat} (looped : iterate (replyStep 2 (answers count) sameOne) 4
      (0, Qsort.insertion.sort nodesOneTwo) = .done (count, markedOne)) :
    ∃ listing, listNodes .insertion .merge (some nodesOneTwo) ⟨true, [], []⟩ (answers count)
      sameOne 4 = .done listing ∧ listing.error = .none ∧ listing.replies = count ∧
      listing.output = (QsortPort.merge.sort markedOne).flatMap printNode := by
  obtain ⟨sent, _, runs⟩ := listNodes_eq .insertion .merge nodesOneTwo (answers count) sameOne
  have ran := runs 4
  rw [show nodesOneTwo.length = 2 from rfl, looped] at ran
  exact ⟨_, ran, rfl, rfl, rfl⟩

theorem listing_tells_twice : ∃ listing listing',
    listNodes .insertion .merge (some nodesOneTwo) ⟨true, [], []⟩ (answers 1) sameOne 4 =
      .done listing ∧
    listNodes .insertion .merge (some nodesOneTwo) ⟨true, [], []⟩ (answers 2) sameOne 4 =
      .done listing' ∧
    (nodesOneTwo.map fun node => (node.identity, heard sameOne listing.replies node.addr)).Perm
      (nodesOneTwo.map fun node => (node.identity, heard sameOne listing'.replies node.addr)) := by
  obtain ⟨listing, ran, fine, _, output⟩ := @listed 1 (by decide +kernel)
  obtain ⟨listing', ran', fine', _, output'⟩ := @listed 2 (by decide +kernel)
  have unmarked : Unmarked nodesOneTwo := by unfold Unmarked; decide +kernel
  exact ⟨listing, listing', ran, ran',
    listing_tells unmarked unmarked ran ran' fine fine' (output.trans output'.symm)⟩

theorem listing_of_file_two : ∃ listing,
    listNodes .insertion .merge (some nodesOneTwo) ⟨true, [], []⟩ (answers 1) sameOne 4 =
      .done listing ∧ ∃ lines : List (List UInt8), listing.output = lines.flatten ∧
        lines.Perm [(triple 1).line portDigest true 1, (triple 2).line portDigest false 1] := by
  obtain ⟨listing, ran, fine, replies, _⟩ := @listed 1 (by decide +kernel)
  have read : getNodes portDigest (some ⟨oneTwo, false, false⟩) 5 [] =
      .done (some nodesOneTwo, []) := by decide +kernel
  obtain ⟨lines, output, perm⟩ := listing_of_file spelled_oneTwo read ran fine
  rw [replies] at perm
  exact ⟨listing, ran, lines, output, perm⟩

end PpsDht
