import PpsDht.NodeInit
import PpsDht.Network

/-! `pps-list-nodes`: an empty datagram goes to every node, the answers mark the nodes that
are alive, and the nodes are printed in the order of `compare_port`. What `recvfrom` delivers
is a sequence without an end. -/
namespace PpsDht

open CLib Loop

/-- The ports are compared as they are stored, and the answer is never negative. -/
def comparePort (first second : Node) : Int :=
  if first.addr.sinPort > second.addr.sinPort then 1 else 0

/-- The C library's `qsort` under `compare_port`: no node is put before one that the
comparison puts first. -/
structure QsortPort where
  sort : NodeList → NodeList
  perm : ∀ list, (sort list).Perm list
  sorted : ∀ list, (sort list).Pairwise fun a b => comparePort a b ≤ 0

theorem comparePort_nonpos_iff (a b : Node) :
    comparePort a b ≤ 0 ↔ a.addr.sinPort ≤ b.addr.sinPort := by
  rw [comparePort]
  split
  next greater => exact iff_of_false (by decide) (UInt16.not_le.mpr greater)
  next le => exact iff_of_true (by decide) (UInt16.not_lt.mp le)

/-- Merge sort takes the first of two nodes unless the comparison puts the second one first. -/
def QsortPort.merge : QsortPort where
  sort list := list.mergeSort fun a b => decide (comparePort a b ≤ 0)
  perm list := List.mergeSort_perm list _
  sorted list := by
    refine (List.pairwise_mergeSort ?_ ?_ list).imp of_decide_eq_true
    · intro a b c
      simp only [decide_eq_true_eq, comparePort_nonpos_iff]
      exact UInt16.le_trans
    · intro a b
      simp only [Bool.or_eq_true, decide_eq_true_eq, comparePort_nonpos_iff]
      exact UInt16.le_total a.addr.sinPort b.addr.sinPort

def received : Option Datagram → Int
  | none => -1
  | some datagram => (datagram.payload.take maxMsgElemSize).length

/-- `same` is what `memcmp` finds over `addr_len_rcv` bytes. -/
def markResponsive (same : SockAddr → Bool) (nodes : NodeList) : NodeList :=
  nodes.map fun node =>
    if same node.addr && node.responsive == 0 then { node with responsive := 1 } else node

/-- One evaluation of the reply loop, with the replies so far. `i` is the one declared before
the loop; the loop over the nodes has its own. The source does not set `addr_len_rcv`. -/
def replyStep (i : Nat) (arrivals : Nat → Option Datagram) (same : Nat → SockAddr → Bool)
    (s : Nat × NodeList) : Step (Nat × NodeList) (Nat × NodeList) :=
  let (replies, nodes) := s
  if 0 < i ∧ received (arrivals replies) = 0 then
    .next (replies + 1, markResponsive (same replies) nodes)
  else .done (replies, nodes)

/-- `inet_ntop(AF_INET, ...)` -/
def inetNtop (sinAddr : UInt32) : List UInt8 :=
  [46].intercalate ((List.range 4).map fun i => Decimal.print (sinAddr.toNat / 256 ^ i % 256))

def hexDigit (n : Nat) : UInt8 := if n < 10 then UInt8.ofNat (48 + n) else UInt8.ofNat (87 + n)

def printSha (sha : Digest) : List UInt8 :=
  sha.bytes.flatMap fun byte => [hexDigit (byte.toNat / 16), hexDigit (byte.toNat % 16)]

def printedPort (node : Node) : Nat := (ntohs node.addr.sinPort).toNat

/-- `"%s %d ("`, the digest, and `") OK\n"` or `") FAIL\n"` -/
def printNode (node : Node) : List UInt8 :=
  inetNtop node.addr.sinAddr ++ 32 :: Decimal.print (printedPort node) ++ [32, 40] ++
    printSha node.sha ++
      if node.responsive = 1 then [41, 32, 79, 75, 10] else [41, 32, 70, 65, 73, 76, 10]

structure Listing where
  error : ErrorCode
  sent : List Datagram
  replies : Nat
  output : List UInt8

/-- `main` of `list-nodes.c`; the error of `ring_init` is not looked at. -/
def listNodes (q : Qsort) (p : QsortPort) (getNodes : Option NodeList) (env : Env)
    (arrivals : Nat → Option Datagram) (same : Nat → SockAddr → Bool) (fuel : Nat) :
    Outcome Listing :=
  if env.socket then
    match ringAlloc getNodes env.alloc with
    | (none, _) => .done ⟨.badParameter, [], 0, []⟩
    | (some ring, _) =>
      let nodesToPrint := (ringInit q (some ring)).2.getD ring
      match sendMessages [] nodesToPrint env.sends with
      | (.none, sent) =>
        (iterate (replyStep nodesToPrint.length arrivals same) fuel (0, nodesToPrint)).bind
          fun (replies, nodes) => .done ⟨.none, sent, replies, (p.sort nodes).flatMap printNode⟩
      | (error, sent) => .done ⟨error, sent, 0, []⟩
  else .done ⟨.network, [], 0, []⟩

/-! The reply loop. -/

/-- When all requests are sent, no more replies than requests are consumed, and the nodes
are sorted and printed. -/
def StopsInTime (q : Qsort) (p : QsortPort) (ring : NodeList) (arrivals : Nat → Option Datagram)
    (same : Nat → SockAddr → Bool) : Prop :=
  ∃ fuel sent replies nodes,
    listNodes q p (some ring) ⟨true, [], []⟩ arrivals same fuel =
      .done ⟨.none, sent, replies, (p.sort nodes).flatMap printNode⟩ ∧
    sent.length = ring.length ∧ replies ≤ sent.length

section

variable {i : Nat} {arrivals : Nat → Option Datagram} {same : Nat → SockAddr → Bool}

theorem replyStep_next (waiting : 0 < i) {k : Nat} (nodes : NodeList)
    (empty : received (arrivals k) = 0) :
    replyStep i arrivals same (k, nodes) = .next (k + 1, markResponsive (same k) nodes) := by
  simp only [replyStep, waiting, empty, and_self, ↓reduceIte]

theorem replyStep_done {k : Nat} (nodes : NodeList) (last : i = 0 ∨ received (arrivals k) ≠ 0) :
    replyStep i arrivals same (k, nodes) = .done (k, nodes) := by
  rw [replyStep, if_neg]
  omega

theorem replies_passed (waiting : 0 < i) {fuel k last : Nat} {nodes out : NodeList}
    (ran : iterate (replyStep i arrivals same) fuel (k, nodes) = .done (last, out)) :
    received (arrivals last) ≠ 0 ∧ ∀ j, k ≤ j → j < last → received (arrivals j) = 0 := by
  induction fuel generalizing k nodes with
  | zero => simp [iterate] at ran
  | succ fuel ih =>
    by_cases empty : received (arrivals k) = 0
    · rw [iterate_next (replyStep_next waiting nodes empty)] at ran
      obtain ⟨ends, passed⟩ := ih ran
      refine ⟨ends, fun j from_k before => ?_⟩
      rcases Nat.eq_or_lt_of_le from_k with rfl | later
      · exact empty
      · exact passed j later before
    · rw [iterate_done (replyStep_done nodes (.inr empty))] at ran
      simp only [Outcome.done.injEq, Prod.mk.injEq] at ran
      obtain ⟨rfl, _⟩ := ran
      exact ⟨empty, fun j low high => absurd (Nat.lt_of_le_of_lt low high) (Nat.lt_irrefl k)⟩

theorem replies_end (ahead k : Nat) (nodes : NodeList)
    (last : received (arrivals (k + ahead)) ≠ 0) :
    ∃ replies out, replies ≤ k + ahead ∧
      Returns (replyStep i arrivals same) (k, nodes) (replies, out) := by
  induction ahead generalizing k nodes with
  | zero => exact ⟨k, nodes, Nat.le_refl k, returns_done (replyStep_done nodes (.inr last))⟩
  | succ ahead ih =>
    by_cases stops : i = 0 ∨ received (arrivals k) ≠ 0
    · exact ⟨k, nodes, Nat.le_add_right k _, returns_done (replyStep_done nodes stops)⟩
    · have shifted : k + 1 + ahead = k + (ahead + 1) := by omega
      obtain ⟨replies, out, few, returns⟩ :=
        ih (k + 1) (markResponsive (same k) nodes) (by rwa [shifted])
      have next := @replyStep_next i arrivals same (by omega) k nodes (by omega)
      exact ⟨replies, out, by omega, (returns_next next).mpr returns⟩

def Node.identity (node : Node) : Digest × SockAddr := (node.sha, node.addr)

end

theorem length_sent (message : List UInt8) (nodes : NodeList) :
    ∃ sent, sendMessages message nodes [] = (.none, sent) ∧ sent.length = nodes.length := by
  induction nodes with
  | nil => exact ⟨[], rfl, rfl⟩
  | cons node nodes ih =>
    obtain ⟨sent, all, length⟩ := ih
    refine ⟨⟨node.addr, message⟩ :: sent, ?_, by simp [length]⟩
    simp [sendMessages, all]

theorem listNodes_eq (q : Qsort) (p : QsortPort) (ring : NodeList)
    (arrivals : Nat → Option Datagram) (same : Nat → SockAddr → Bool) :
    ∃ sent : List Datagram, sent.length = ring.length ∧ ∀ fuel,
      listNodes q p (some ring) ⟨true, [], []⟩ arrivals same fuel =
        (iterate (replyStep ring.length arrivals same) fuel (0, q.sort ring)).bind
          fun (replies, nodes) => .done ⟨.none, sent, replies, (p.sort nodes).flatMap printNode⟩ := by
  have size : (q.sort ring).length = ring.length := (q.perm ring).length_eq
  obtain ⟨sent, all, length⟩ := length_sent [] (q.sort ring)
  refine ⟨sent, length.trans size, fun fuel => ?_⟩
  simp only [listNodes, ringAlloc, malloc_nil, ringInit, Option.getD_some, all, size, ↓reduceIte]

theorem stopsInTime_iff_returns (q : Qsort) (p : QsortPort) (ring : NodeList)
    (arrivals : Nat → Option Datagram) (same : Nat → SockAddr → Bool) :
    StopsInTime q p ring arrivals same ↔ ∃ replies out, replies ≤ ring.length ∧
      Returns (replyStep ring.length arrivals same) (0, q.sort ring) (replies, out) := by
  obtain ⟨sent, length, runs⟩ := listNodes_eq q p ring arrivals same
  constructor
  · rintro ⟨fuel, sent', replies, nodes, ran, length', few⟩
    rw [runs, Outcome.bind_eq_done_iff] at ran
    obtain ⟨⟨replies', out⟩, ended, listed⟩ := ran
    simp only [Outcome.done.injEq, Listing.mk.injEq, true_and] at listed
    obtain ⟨_, rfl, _⟩ := listed
    exact ⟨replies', out, length' ▸ few, fuel, ended⟩
  · rintro ⟨replies, out, few, fuel, ended⟩
    exact ⟨fuel, sent, replies, out, by rw [runs, ended]; rfl, length, length ▸ few⟩

/-- The loop stops in time exactly when, unless there is no node, one of the first calls of
`recvfrom`, as many as there are nodes and one more, does not give an empty datagram. -/
theorem list_nodes_stops_iff (q : Qsort) (p : QsortPort) (ring : NodeList)
    (arrivals : Nat → Option Datagram) (same : Nat → SockAddr → Bool) :
    StopsInTime q p ring arrivals same ↔
      ring = [] ∨ ∃ k ≤ ring.length, received (arrivals k) ≠ 0 := by
  rw [stopsInTime_iff_returns]
  constructor
  · rintro ⟨replies, out, few, fuel, ended⟩
    by_cases none : ring = []
    · exact .inl none
    · have passed := replies_passed (List.length_pos_iff.mpr none) ended
      exact .inr ⟨replies, few, passed.1⟩
  · rintro (rfl | ⟨k, few, last⟩)
    · exact ⟨0, q.sort [], Nat.le_refl 0, returns_done (replyStep_done _ (.inl rfl))⟩
    · rw [← Nat.zero_add k] at last
      obtain ⟨replies, out, early, returns⟩ := replies_end k 0 (q.sort ring) last
      exact ⟨replies, out, by omega, returns⟩

/-- One node that answers twice: the second answer is consumed as well. -/
theorem list_nodes_counts_no_replies :
    ¬ ∀ (q : Qsort) (p : QsortPort) (ring : NodeList) (arrivals : Nat → Option Datagram)
      (same : Nat → SockAddr → Bool), StopsInTime q p ring arrivals same := by
  intro stops
  have twice := stops .insertion .merge [⟨Digest.ofFirst 7, ⟨1, 0⟩, 0⟩]
    (fun k => if k < 2 then some ⟨⟨1, 0⟩, []⟩ else none) fun _ _ => true
  obtain ⟨replies, out, few, _, ended⟩ := (stopsInTime_iff_returns ..).mp twice
  have early : replies < 2 := Nat.lt_succ_of_le few
  exact (replies_passed (by decide) ended).1 (by rw [if_pos early]; rfl)

/-! The order of the output. -/

/-- The nodes as they are printed: none is lost, and their ports never decrease. -/
structure PrintsByPort (p : QsortPort) (nodes : NodeList) : Prop where
  perm : (p.sort nodes).Perm nodes
  ascending : ((p.sort nodes).map printedPort).Pairwise (· ≤ ·)

theorem sinPort_eq (node : Node) :
    node.addr.sinPort.toNat = printedPort node % 256 * 256 + printedPort node / 256 := by
  have bound := node.addr.sinPort.toNat_lt
  rw [printedPort, ntohs, toNat_htons]
  omega

/-- Stored and printed ports are in the same order unless the bytes of the printed ones are in
opposite orders. -/
theorem ports_agree_iff (a b : Node) :
    (a.addr.sinPort ≤ b.addr.sinPort → printedPort a ≤ printedPort b) ↔
      (printedPort b / 256 < printedPort a / 256 → printedPort b % 256 ≤ printedPort a % 256) := by
  have low (node : Node) : printedPort node % 256 < 256 := Nat.mod_lt _ (by decide)
  have high (node : Node) : printedPort node / 256 < 256 :=
    Nat.div_lt_of_lt_mul (ntohs node.addr.sinPort).toNat_lt
  have := low a
  have := low b
  have := high a
  have := high b
  rw [UInt16.le_iff_toNat_le, sinPort_eq a, sinPort_eq b]
  omega

/-- In a list sorted by the stored ports the printed ones ascend exactly when no two nodes
disagree. -/
theorem pairwise_printed_iff {list : NodeList}
    (sorted : list.Pairwise fun a b => comparePort a b ≤ 0) :
    (list.map printedPort).Pairwise (· ≤ ·) ↔
      ∀ a ∈ list, ∀ b ∈ list, a.addr.sinPort ≤ b.addr.sinPort → printedPort a ≤ printedPort b := by
  rw [List.pairwise_map]
  constructor
  · intro ascending
    have forward : list.Pairwise fun a b =>
        a.addr.sinPort ≤ b.addr.sinPort → printedPort a ≤ printedPort b := by
      refine ascending.imp ?_
      intro a b printed _
      exact printed
    refine List.Pairwise.forall_of_forall_of_flip (fun _ _ _ => Nat.le_refl _) forward ?_
    refine sorted.imp fun {a b} stored back => ?_
    -- two nodes in both orders have the same port
    have same := UInt16.le_antisymm back ((comparePort_nonpos_iff a b).mp stored)
    rw [printedPort, printedPort, same]
  · intro agree
    exact sorted.imp_of_mem fun {a b} first second stored =>
      agree a first b second ((comparePort_nonpos_iff a b).mp stored)

theorem PrintsByPort.agree {p : QsortPort} {nodes : NodeList} (prints : PrintsByPort p nodes)
    {a b : Node} (first : a ∈ nodes) (second : b ∈ nodes)
    (stored : a.addr.sinPort ≤ b.addr.sinPort) : printedPort a ≤ printedPort b := by
  have members (node : Node) : node ∈ p.sort nodes ↔ node ∈ nodes := (p.perm nodes).mem_iff
  exact (pairwise_printed_iff (p.sorted nodes)).mp prints.ascending a ((members a).mpr first) b
    ((members b).mpr second) stored

/-- The ports are printed in ascending order exactly when no port with a lower high byte has a
higher low byte than another one. -/
theorem ports_printed_ascending_iff (p : QsortPort) (nodes : NodeList) :
    PrintsByPort p nodes ↔ ∀ a ∈ nodes, ∀ b ∈ nodes,
      printedPort a / 256 < printedPort b / 256 → printedPort a % 256 ≤ printedPort b % 256 := by
  constructor
  · intro prints a first b second
    exact (ports_agree_iff b a).mp (prints.agree second first)
  · intro bytes
    refine ⟨p.perm nodes, (pairwise_printed_iff (p.sorted nodes)).mpr fun a first b second => ?_⟩
    rw [(p.perm nodes).mem_iff] at first second
    exact (ports_agree_iff a b).mpr (bytes b second a first)

/-- Port 256 is stored as 1 and port 1 as 256. -/
theorem port_256_before_port_1 :
    ¬ ∀ (p : QsortPort) (nodes : NodeList), PrintsByPort p nodes := by
  intro prints
  have wrong := (prints .merge [⟨Digest.ofFirst 7, ⟨htons 1, 0⟩, 0⟩,
    ⟨Digest.ofFirst 8, ⟨htons 256, 0⟩, 0⟩]).agree (.tail _ (.head _)) (.head _) (by decide)
  exact absurd wrong (by decide)

end PpsDht
