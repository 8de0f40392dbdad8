import PpsDht.Basic
import PpsDht.Lib.Loop
import PpsDht.Lib.FirstSeen
import Mathlib.Data.Fintype.Card
import Mathlib.Data.List.Sort

/-! Nodes, node lists and the ring: `node.c`, the growing and sorting part of
`node_list.c`, and `ring.c`. SHA1 is a parameter. Both loops of
`ring_get_nodes_for_key` are step functions without a bound of their own; reading
`ring->nodes` outside the array is a fault. -/
namespace PpsDht

open CLib Loop FirstSeen

def shaDigestLength : Nat := 20

structure Digest where
  bytes : List UInt8
  size : bytes.length = shaDigestLength
  deriving DecidableEq

def Digest.first (d : Digest) : UInt8 := d.bytes.headD 0

/-- An `AF_INET` address; the port is kept as stored, in network byte order. -/
structure SockAddr where
  sinPort : UInt16
  sinAddr : UInt32
  deriving DecidableEq

structure Node where
  sha : Digest
  addr : SockAddr
  responsive : Int
  deriving DecidableEq

/-- The nodes of a list; the source keeps their number beside the array. -/
abbrev NodeList := List Node

/-- The bytes of a `node_t`: digest, address and flag. -/
def sizeofNode : Nat := 40

def nodeCmpSha (first second : Node) : Int :=
  strncmp shaDigestLength first.sha.bytes second.sha.bytes

/-- A list that cannot grow is left as it was. -/
def nodeListAdd (list : NodeList) (node : Node) (a : Alloc) : ErrorCode × NodeList × Alloc :=
  if sizeMax / sizeofNode < list.length + 1 then (.nomem, list, a)
  else
    match malloc a with
    | (false, a) => (.nomem, list, a)
    | (true, a) => (.none, list ++ [node], a)

/-- The C library's `qsort` under `node_cmp_sha`: some arrangement in its order. -/
structure Qsort where
  sort : NodeList → NodeList
  perm : ∀ list, (sort list).Perm list
  sorted : ∀ list, (sort list).Pairwise fun a b => nodeCmpSha a b ≤ 0

/-- `getNodes` is what the server file gives, with NULL as `none`. -/
def ringAlloc (getNodes : Option NodeList) (a : Alloc) : Option NodeList × Alloc :=
  match malloc a with
  | (false, a) => (none, a)
  | (true, a) => (getNodes, a)

def ringInit (q : Qsort) : Option NodeList → ErrorCode × Option NodeList
  | none => (.badParameter, none)
  | some ring => (.none, some (q.sort ring))

/-- `sorted` is what `ring_init` can make of `ring`. -/
structure RingInit (ring sorted : NodeList) : Prop where
  perm : sorted.Perm ring
  sorted : sorted.Pairwise fun a b => nodeCmpSha a b ≤ 0

theorem Qsort.ringInit (q : Qsort) (ring : NodeList) : RingInit ring (q.sort ring) :=
  ⟨q.perm ring, q.sorted ring⟩

def serverDifferent (ring : NodeList) (node : Node) : Bool :=
  ring.all fun n => decide (node.addr ≠ n.addr)

theorem serverDifferent_iff (ring : NodeList) (node : Node) :
    serverDifferent ring node = true ↔ node.addr ∉ ring.map Node.addr := by
  simp only [serverDifferent, List.all_eq_true, decide_eq_true_eq, List.mem_map, not_exists,
    not_and]
  exact ⟨fun h n member => Ne.symm (h n member), fun h n member => Ne.symm (h n member)⟩

/-- `{.sha = {*hash}}` keeps the first byte of the digest and zeroes the other ones. -/
def keyNode (hash : Digest) : Node where
  sha := ⟨hash.first :: List.replicate 19 0, by simp [shaDigestLength]⟩
  addr := ⟨0, 0⟩
  responsive := 0

/-- `while (node_cmp_sha(&node_key, &ring->nodes[i]) > 0) i++` -/
def searchStep (ring : NodeList) (key : Node) (i : Nat) : Step Nat Nat :=
  match ring[i]? with
  | none => .fault
  | some node => if 0 < nodeCmpSha key node then .next (i + 1) else .done i

/-- The variables of the collecting loop. -/
structure Walk where
  index : Nat
  result : NodeList
  alloc : Alloc
  deriving DecidableEq

/-- One evaluation of the collecting loop; `none` is its NULL when a node cannot be added. -/
def collectStep (ring : NodeList) (wanted : Nat) (s : Walk) :
    Step Walk (Option NodeList × Alloc) :=
  if s.result.length < wanted then
    match ring[s.index]? with
    | none => .fault
    | some node =>
      if serverDifferent s.result node then
        match nodeListAdd s.result node s.alloc with
        | (.none, result, a) => .next ⟨(s.index + 1) % ring.length, result, a⟩
        | (_, _, a) => .done (none, a)
      else .next ⟨(s.index + 1) % ring.length, s.result, s.alloc⟩
  else .done (some s.result, s.alloc)

/-- Without memory for the result the source writes through a null pointer. -/
def ringGetNodesForKey (sha1 : List UInt8 → Digest) (ring : NodeList) (wanted : Nat)
    (key : CString) (fuel : Nat) (a : Alloc) : Outcome (Option NodeList × Alloc) :=
  match malloc a with
  | (false, _) => .fault
  | (true, a) =>
    (iterate (searchStep ring (keyNode (sha1 key.bytes))) fuel 0).bind fun i =>
      iterate (collectStep ring wanted) fuel ⟨i, [], a⟩

/-- The call returns the nodes `list`, whatever the allocator did. -/
def RingReturns (sha1 : List UInt8 → Digest) (ring : NodeList) (wanted : Nat) (key : CString)
    (list : NodeList) : Prop :=
  ∃ fuel a rest, ringGetNodesForKey sha1 ring wanted key fuel a = .done (some list, rest)

/-! The comparator orders nodes by the bytes before the first NUL of their digest. -/

def Node.rank (node : Node) : List Nat := cut shaDigestLength node.sha.bytes

theorem nodeCmpSha_pos_iff (a b : Node) : 0 < nodeCmpSha a b ↔ b.rank < a.rank :=
  strncmp_pos_iff ..

theorem nodeCmpSha_nonpos_iff (a b : Node) : nodeCmpSha a b ≤ 0 ↔ a.rank ≤ b.rank :=
  strncmp_nonpos_iff ..

theorem nodeCmpSha_neg_iff (a b : Node) : nodeCmpSha a b < 0 ↔ a.rank < b.rank :=
  strncmp_neg_iff ..

theorem nodeCmpSha_eq_zero_iff (a b : Node) : nodeCmpSha a b = 0 ↔ a.rank = b.rank :=
  strncmp_eq_zero_iff_cut ..

def sortByRank (list : NodeList) : NodeList := list.insertionSort fun a b => a.rank ≤ b.rank

theorem sortByRank_perm (list : NodeList) : (sortByRank list).Perm list :=
  List.perm_insertionSort _ list

theorem sortByRank_sorted (list : NodeList) :
    (sortByRank list).Pairwise fun a b => a.rank ≤ b.rank := by
  have total : Std.Total fun a b : Node => a.rank ≤ b.rank := ⟨fun a b => le_total a.rank b.rank⟩
  have trans : IsTrans Node fun a b => a.rank ≤ b.rank := ⟨fun _ _ _ ab bc => ab.trans bc⟩
  exact List.pairwise_insertionSort _ list

def Qsort.insertion : Qsort where
  sort := sortByRank
  perm := sortByRank_perm
  sorted list := (sortByRank_sorted list).imp fun le => (nodeCmpSha_nonpos_iff _ _).mpr le

theorem RingInit.rank_sorted {ring sorted : NodeList} (init : RingInit ring sorted) :
    sorted.Pairwise fun a b => a.rank ≤ b.rank :=
  init.sorted.imp fun le => (nodeCmpSha_nonpos_iff _ _).mp le

theorem Digest.eq_cons (d : Digest) : ∃ tail, d.bytes = d.first :: tail := by
  obtain ⟨bytes, size⟩ := d
  cases bytes with
  | nil => simp [shaDigestLength] at size
  | cons byte tail => exact ⟨tail, rfl⟩

theorem Node.rank_eq (node : Node) :
    ∃ tail, node.rank = if node.sha.first = 0 then [] else node.sha.first.toNat :: tail := by
  obtain ⟨tail, whole⟩ := node.sha.eq_cons
  exact ⟨cut 19 tail, by rw [Node.rank, whole]; exact cut_cons 19 _ _⟩

theorem rank_keyNode (hash : Digest) :
    (keyNode hash).rank = if hash.first = 0 then [] else [hash.first.toNat] := by
  have zeros : cut 19 (List.replicate 19 (0 : UInt8)) = [] := by decide
  rw [Node.rank, keyNode]
  exact (cut_cons 19 hash.first _).trans (by rw [zeros])

theorem Node.first_le_of_rank_le {a b : Node} (le : a.rank ≤ b.rank) :
    a.sha.first.toNat ≤ b.sha.first.toNat := by
  by_contra less
  obtain ⟨ta, ra⟩ := a.rank_eq
  obtain ⟨tb, rb⟩ := b.rank_eq
  have za : a.sha.first ≠ 0 := fun zero => by simp [zero] at less
  rw [ra, if_neg za, rb] at le
  by_cases zb : b.sha.first = 0
  · rw [if_pos zb] at le
    exact absurd (List.nil_lt_cons _ _) (not_lt.mpr le)
  · rw [if_neg zb] at le
    exact absurd (List.cons_lt_cons_iff.mpr (.inl (not_le.mp less))) (not_lt.mpr le)

/-- The search compares first bytes only. -/
theorem nodeCmpSha_keyNode_pos_iff (hash : Digest) (node : Node) :
    0 < nodeCmpSha (keyNode hash) node ↔ node.sha.first.toNat < hash.first.toNat := by
  obtain ⟨tail, rank⟩ := node.rank_eq
  rw [nodeCmpSha_pos_iff, rank_keyNode, rank]
  by_cases zh : hash.first = 0
  · simp [zh, List.not_lt_nil]
  · by_cases zn : node.sha.first = 0
    · simpa [zh, zn, List.nil_lt_cons] using toNat_pos zh
    · simp only [zh, zn, ↓reduceIte, List.cons_lt_cons_iff, List.not_lt_nil, and_false, or_false]

/-! The search loop. -/

def behind (hash : Digest) (node : Node) : Bool := decide (node.sha.first.toNat < hash.first.toNat)

theorem searchStep_of_drop {ring rest : NodeList} {node : Node} {i : Nat} (hash : Digest)
    (here : ring.drop i = node :: rest) :
    searchStep ring (keyNode hash) i = if behind hash node then .next (i + 1) else .done i := by
  have at_i : ring[i]? = some node := by
    rw [← List.head?_drop, here, List.head?_cons]
  simp only [searchStep, at_i, nodeCmpSha_keyNode_pos_iff, behind, decide_eq_true_eq]

/-- The search ends in the iteration after the last skipped node, or outside the array. -/
theorem iterate_search (ring : NodeList) (hash : Digest) (i : Nat) :
    iterate (searchStep ring (keyNode hash)) ((ring.drop i).length + 1) i =
      if (ring.drop i).dropWhile (behind hash) = [] then .fault
      else .done (i + ((ring.drop i).takeWhile (behind hash)).length) := by
  generalize rest : ring.drop i = suffix
  induction suffix generalizing i with
  | nil =>
    have outside : ring[i]? = none := by rw [← List.head?_drop, rest, List.head?_nil]
    have step : searchStep ring (keyNode hash) i = .fault := by simp only [searchStep, outside]
    simp [iterate_fault step]
  | cons node suffix ih =>
    have step := searchStep_of_drop hash rest
    have next : ring.drop (i + 1) = suffix := by
      rw [← List.tail_drop, rest, List.tail_cons]
    by_cases skipped : behind hash node = true
    · rw [if_pos skipped] at step
      rw [List.length_cons, iterate_next step, ih (i + 1) next, List.dropWhile_cons_of_pos skipped,
        List.takeWhile_cons_of_pos skipped, List.length_cons]
      simp only [Nat.add_comm 1, Nat.add_assoc]
    · rw [if_neg skipped] at step
      rw [iterate_done step, List.dropWhile_cons_of_neg skipped,
        List.takeWhile_cons_of_neg skipped]
      simp

/-- Where the search stops: after the nodes whose first byte is below the key's. -/
def searchStart (ring : NodeList) (hash : Digest) : Nat := (ring.takeWhile (behind hash)).length

theorem search_cases (ring : NodeList) (hash : Digest) :
    (∀ node ∈ ring, node.sha.first.toNat < hash.first.toNat) ∧
        Faults (searchStep ring (keyNode hash)) 0 ∨
      (∃ node ∈ ring, hash.first.toNat ≤ node.sha.first.toNat) ∧
        Returns (searchStep ring (keyNode hash)) 0 (searchStart ring hash) := by
  have ended := iterate_search ring hash 0
  simp only [List.drop_zero, Nat.zero_add, List.dropWhile_eq_nil_iff, behind,
    decide_eq_true_eq] at ended
  by_cases all : ∀ node ∈ ring, node.sha.first.toNat < hash.first.toNat
  · rw [if_pos all] at ended
    exact .inl ⟨all, _, ended⟩
  · rw [if_neg all] at ended
    refine .inr ⟨?_, _, ended⟩
    simpa using all

theorem search_returns_iff (ring : NodeList) (hash : Digest) (i : Nat) :
    Returns (searchStep ring (keyNode hash)) 0 i ↔
      (∃ node ∈ ring, hash.first.toNat ≤ node.sha.first.toNat) ∧ i = searchStart ring hash := by
  constructor
  · intro returns
    rcases search_cases ring hash with ⟨_, faults⟩ | ⟨some, start⟩
    · exact absurd faults returns.not_faults
    · exact ⟨some, returns.unique start⟩
  · rintro ⟨⟨node, member, le⟩, rfl⟩
    rcases search_cases ring hash with ⟨all, _⟩ | ⟨_, start⟩
    · exact absurd (all node member) (by omega)
    · exact start

theorem searchStart_lt {ring : NodeList} {hash : Digest}
    (some : ∃ node ∈ ring, hash.first.toNat ≤ node.sha.first.toNat) :
    searchStart ring hash < ring.length := by
  obtain ⟨node, member, le⟩ := some
  by_contra outside
  have whole := List.takeWhile_append_dropWhile (p := behind hash) (l := ring)
  have lengths := congrArg List.length whole
  rw [List.length_append] at lengths
  have empty : ring.dropWhile (behind hash) = [] := by
    apply List.eq_nil_of_length_eq_zero
    simp only [searchStart] at outside
    omega
  have skipped := List.dropWhile_eq_nil_iff.mp empty node member
  simp only [behind, decide_eq_true_eq] at skipped
  omega

end PpsDht
