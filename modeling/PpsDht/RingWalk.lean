import PpsDht.Ring
import Mathlib.Data.List.Rotate

/-! What `ring_get_nodes_for_key` returns. Its first loop stays inside the array for
some keys only; its second one walks the ring from there and keeps the first node of
every server, which ends exactly when enough servers exist. -/
namespace PpsDht

open CLib Loop FirstSeen

/-- The search for a key reads inside the ring and stops inside it exactly when some
node's digest starts with a byte not below the first byte of the key's digest. -/
theorem search_stays_inside_iff (sha1 : List UInt8 → Digest) {list ring : NodeList}
    (init : RingInit list ring) (key : CString) :
    (¬ Faults (searchStep ring (keyNode (sha1 key.bytes))) 0 ∧
      ∃ i, i < ring.length ∧ Returns (searchStep ring (keyNode (sha1 key.bytes))) 0 i) ↔
    ∃ node ∈ list, (sha1 key.bytes).first.toNat ≤ node.sha.first.toNat := by
  have moved : (∃ node ∈ list, (sha1 key.bytes).first.toNat ≤ node.sha.first.toNat) ↔
      ∃ node ∈ ring, (sha1 key.bytes).first.toNat ≤ node.sha.first.toNat := by
    simp only [init.perm.mem_iff]
  rw [moved]
  constructor
  · rintro ⟨_, i, _, returns⟩
    exact ((search_returns_iff ring _ i).mp returns).1
  · intro some
    have returns := (search_returns_iff ring (sha1 key.bytes) _).mpr ⟨some, rfl⟩
    exact ⟨returns.not_faults, _, searchStart_lt some, returns⟩

def Digest.ofFirst (byte : UInt8) : Digest := ⟨byte :: List.replicate 19 0, by simp [shaDigestLength]⟩

def nodeAt (byte : UInt8) : Node := ⟨Digest.ofFirst byte, ⟨0, 0⟩, 0⟩

/-- The search passes two of three nodes. -/
theorem search_stays_inside_three :
    ¬ Faults (searchStep [nodeAt 7, nodeAt 8, nodeAt 10] (keyNode (Digest.ofFirst 9))) 0 ∧
      ∃ i, i < 3 ∧
        Returns (searchStep [nodeAt 7, nodeAt 8, nodeAt 10] (keyNode (Digest.ofFirst 9))) 0 i := by
  have init : RingInit [nodeAt 10, nodeAt 7, nodeAt 8] [nodeAt 7, nodeAt 8, nodeAt 10] :=
    ⟨by decide, by decide⟩
  exact (search_stays_inside_iff (fun _ => Digest.ofFirst 9) init CString.empty).mpr
    ⟨nodeAt 10, List.mem_cons_self, by decide⟩

/-- A key digest above every node's is not wrapped around: the search runs off the array. -/
theorem search_leaves_ring :
    ¬ ∀ (sha1 : List UInt8 → Digest) (list ring : NodeList), list ≠ [] → RingInit list ring →
      ∀ key : CString, ¬ Faults (searchStep ring (keyNode (sha1 key.bytes))) 0 ∧
        ∃ i, i < ring.length ∧ Returns (searchStep ring (keyNode (sha1 key.bytes))) 0 i := by
  intro inside
  have init : RingInit [⟨Digest.ofFirst 7, ⟨0, 0⟩, 0⟩] [⟨Digest.ofFirst 7, ⟨0, 0⟩, 0⟩] :=
    ⟨List.Perm.refl _, List.pairwise_singleton _ _⟩
  have outside : Faults (searchStep [⟨Digest.ofFirst 7, ⟨0, 0⟩, 0⟩] (keyNode (Digest.ofFirst 8))) 0 :=
    ⟨2, by decide⟩
  exact (inside (fun _ => Digest.ofFirst 8) _ _ (by simp) init CString.empty).1 outside

/-! The collecting loop, with all allocations succeeding. -/

def SockAddr.code (a : SockAddr) : Fin (2 ^ 48) :=
  ⟨a.sinAddr.toNat * 2 ^ 16 + a.sinPort.toNat, by
    have := a.sinAddr.toNat_lt
    have := a.sinPort.toNat_lt
    omega⟩

theorem SockAddr.code_injective : Function.Injective SockAddr.code := by
  intro a b same
  have values : a.sinAddr.toNat * 2 ^ 16 + a.sinPort.toNat =
      b.sinAddr.toNat * 2 ^ 16 + b.sinPort.toNat := congrArg Fin.val same
  have ha := a.sinPort.toNat_lt
  have hb := b.sinPort.toNat_lt
  have addr : a.sinAddr = b.sinAddr := UInt32.toNat_inj.mp (by omega)
  have port : a.sinPort = b.sinPort := UInt16.toNat_inj.mp (by omega)
  cases a; cases b
  simp_all

/-- There are only 2^48 server addresses, so a list of different servers stays short. -/
theorem length_le_of_nodup_addr {list : NodeList} (nodup : (list.map Node.addr).Nodup) :
    list.length ≤ 2 ^ 48 := by
  have codes := (nodup.map SockAddr.code_injective).length_le_card
  simpa using codes

theorem nodeListAdd_nil {list : NodeList} (nodup : (list.map Node.addr).Nodup) (node : Node) :
    nodeListAdd list node [] = (.none, list ++ [node], []) := by
  have short := length_le_of_nodup_addr nodup
  have room : ¬ sizeMax / sizeofNode < list.length + 1 := by
    have : sizeMax / sizeofNode = 461168601842738790 := by decide
    omega
  simp [nodeListAdd, room]

def walkAfter (ring : NodeList) (start : Nat) (visited : NodeList) : Walk :=
  ⟨(start + visited.length) % ring.length, fresh Node.addr [] visited, []⟩

theorem collectStep_visit {ring : NodeList} {start wanted : Nat} {visited rest : NodeList}
    {node : Node} (circle : ring.rotate start = visited ++ node :: rest)
    (more : (fresh Node.addr [] visited).length < wanted) :
    collectStep ring wanted (walkAfter ring start visited) =
      .next (walkAfter ring start (visited ++ [node])) := by
  have shorter : visited.length < ring.length := by
    rw [← List.length_rotate ring start, circle]
    simp
  have here : ring[(start + visited.length) % ring.length]? = some node := by
    rw [Nat.add_comm start, ← List.getElem?_rotate shorter, circle]
    simp
  have index : ((start + visited.length) % ring.length + 1) % ring.length =
      (start + (visited ++ [node]).length) % ring.length := by
    rw [Nat.mod_add_mod, List.length_append, List.length_singleton, Nat.add_assoc]
  have nodup := nodup_map_fresh (f := Node.addr) [] visited
  simp only [collectStep, walkAfter, more, ↓reduceIte, here]
  by_cases new : serverDifferent (fresh Node.addr [] visited) node = true
  · have absent := (serverDifferent_iff _ _).mp new
    simp only [new, ↓reduceIte, nodeListAdd_nil nodup, index, fresh_concat, absent]
  · have present : node.addr ∈ (fresh Node.addr [] visited).map Node.addr := by
      by_contra absent
      exact new ((serverDifferent_iff _ _).mpr absent)
    simp only [new, Bool.false_eq_true, ↓reduceIte, index, fresh_concat, present]

theorem collectStep_finish {ring : NodeList} {start wanted : Nat} (visited rest : NodeList)
    (full : (fresh Node.addr [] visited).length = wanted) :
    collectStep ring wanted (walkAfter ring start visited) =
      .done (some ((fresh Node.addr [] (visited ++ rest)).take wanted), []) := by
  have stop : ¬ (fresh Node.addr [] visited).length < wanted := by omega
  simp only [collectStep, walkAfter, stop, ↓reduceIte, fresh_append]
  rw [← full, List.take_left]

/-- From any point of its first round the walk ends within that round, provided the
round still shows enough servers. -/
theorem iterate_collect {ring : NodeList} {start wanted : Nat} (rest visited : NodeList)
    (circle : ring.rotate start = visited ++ rest)
    (below : (fresh Node.addr [] visited).length ≤ wanted)
    (enough : wanted ≤ (fresh Node.addr [] (visited ++ rest)).length) :
    iterate (collectStep ring wanted) (rest.length + 1) (walkAfter ring start visited) =
      .done (some ((fresh Node.addr [] (visited ++ rest)).take wanted), []) := by
  induction rest generalizing visited with
  | nil =>
    have full : (fresh Node.addr [] visited).length = wanted := by
      rw [List.append_nil] at enough
      exact Nat.le_antisymm below enough
    exact iterate_done (collectStep_finish visited [] full) _
  | cons node rest ih =>
    by_cases more : (fresh Node.addr [] visited).length < wanted
    · have grown : (fresh Node.addr [] (visited ++ [node])).length ≤ wanted := by
        rw [fresh_concat]
        split
        · exact below
        · rw [List.length_append, List.length_singleton]
          exact more
      rw [List.length_cons, iterate_next (collectStep_visit circle more)]
      have regroup : visited ++ node :: rest = (visited ++ [node]) ++ rest := by simp
      rw [regroup] at circle enough ⊢
      exact ih (visited ++ [node]) circle grown enough
    · exact iterate_done (collectStep_finish visited _ (by omega)) _

theorem walkAfter_nil {ring : NodeList} {start : Nat} (inside : start < ring.length) :
    walkAfter ring start [] = ⟨start, [], []⟩ := by
  simp [walkAfter, fresh, Nat.mod_eq_of_lt inside]

theorem distinct_rotate (ring : NodeList) (start : Nat) :
    distinct Node.addr (ring.rotate start) = distinct Node.addr ring :=
  distinct_perm (List.rotate_perm ring start)

theorem collect_within_round {ring : NodeList} {start wanted : Nat} (inside : start < ring.length)
    (enough : wanted ≤ distinct Node.addr ring) :
    iterate (collectStep ring wanted) (ring.length + 1) ⟨start, [], []⟩ =
      .done (some ((fresh Node.addr [] (ring.rotate start)).take wanted), []) := by
  have shown : wanted ≤ (fresh Node.addr [] ([] ++ ring.rotate start)).length := by
    rw [List.nil_append, length_fresh, distinct_rotate]
    exact enough
  have run := iterate_collect (ring.rotate start) [] rfl (Nat.zero_le _) shown
  rwa [List.length_rotate, walkAfter_nil inside] at run

/-- The walk never holds two nodes of one server. -/
structure WalkInvariant (ring : NodeList) (s : Walk) : Prop where
  index : s.index < ring.length
  nodup : (s.result.map Node.addr).Nodup
  within : ∀ addr ∈ s.result.map Node.addr, addr ∈ ring.map Node.addr
  alloc : s.alloc = []

/-- With fewer servers than wanted the walk goes round for ever. -/
theorem collect_diverges {ring : NodeList} {start wanted : Nat} (inside : start < ring.length)
    (few : distinct Node.addr ring < wanted) :
    Diverges (collectStep ring wanted) ⟨start, [], []⟩ := by
  refine diverges_of_invariant (WalkInvariant ring) (fun s inv => ?_)
    ⟨inside, List.nodup_nil, by simp, rfl⟩
  have bound := inv.index
  have short : s.result.length < wanted :=
    lt_of_le_of_lt (length_le_distinct inv.nodup inv.within) few
  have here : ring[s.index]? = some ring[s.index] := List.getElem?_eq_getElem bound
  have nextIndex : (s.index + 1) % ring.length < ring.length :=
    Nat.mod_lt _ (Nat.lt_of_le_of_lt (Nat.zero_le _) inside)
  by_cases new : serverDifferent s.result ring[s.index] = true
  · refine ⟨⟨(s.index + 1) % ring.length, s.result ++ [ring[s.index]], []⟩, ?_, nextIndex, ?_, ?_,
      rfl⟩
    · simp only [collectStep, short, ↓reduceIte, here, new, inv.alloc, nodeListAdd_nil inv.nodup]
    · have absent := (serverDifferent_iff _ _).mp new
      rw [List.map_append, List.map_singleton, List.nodup_append]
      refine ⟨inv.nodup, List.nodup_singleton _, fun addr member other last => ?_⟩
      rw [List.mem_singleton.mp last]
      rintro rfl
      exact absent member
    · intro addr member
      rw [List.map_append, List.mem_append] at member
      rcases member with old | last
      · exact inv.within addr old
      · rw [List.map_singleton, List.mem_singleton] at last
        exact last ▸ List.mem_map_of_mem (List.getElem_mem bound)
  · refine ⟨⟨(s.index + 1) % ring.length, s.result, s.alloc⟩, ?_, nextIndex, inv.nodup, inv.within,
      inv.alloc⟩
    simp only [collectStep, short, ↓reduceIte, here, new, Bool.false_eq_true]

theorem nodeListAdd_erase {list grown : NodeList} {node : Node} {a rest : Alloc}
    (added : nodeListAdd list node a = (.none, grown, rest)) :
    nodeListAdd list node [] = (.none, grown, []) := by
  simp only [nodeListAdd] at added ⊢
  split at added
  · simp at added
  next room =>
    rw [if_neg room]
    split at added
    · simp at added
    · simp only [Prod.mk.injEq, true_and] at added
      simp [added.1]

/-- What a walk collects does not depend on the allocator while that succeeds. -/
theorem collect_erase {ring : NodeList} {wanted index : Nat} {result list : NodeList}
    {a rest : Alloc}
    (returns : Returns (collectStep ring wanted) ⟨index, result, a⟩ (some list, rest)) :
    Returns (collectStep ring wanted) ⟨index, result, []⟩ (some list, []) := by
  obtain ⟨fuel, ended⟩ := returns
  induction fuel generalizing index result a with
  | zero => simp [iterate] at ended
  | succ fuel ih =>
    by_cases short : result.length < wanted
    · cases here : ring[index]? with
      | none =>
        have step : collectStep ring wanted ⟨index, result, a⟩ = .fault := by
          simp only [collectStep, short, ↓reduceIte, here]
        simp [iterate_fault step] at ended
      | some node =>
        by_cases new : serverDifferent result node = true
        · rcases added : nodeListAdd result node a with ⟨error, grown, left⟩
          cases error with
          | none =>
            have step : collectStep ring wanted ⟨index, result, a⟩ =
                .next ⟨(index + 1) % ring.length, grown, left⟩ := by
              simp only [collectStep, short, ↓reduceIte, here, new, added]
            have erased : collectStep ring wanted ⟨index, result, []⟩ =
                .next ⟨(index + 1) % ring.length, grown, []⟩ := by
              simp only [collectStep, short, ↓reduceIte, here, new, nodeListAdd_erase added]
            rw [iterate_next step] at ended
            exact (returns_next erased).mpr (ih ended)
          | _ =>
            have step : collectStep ring wanted ⟨index, result, a⟩ = .done (none, left) := by
              simp only [collectStep, short, ↓reduceIte, here, new, added]
            simp [iterate_done step] at ended
        · have step (b : Alloc) : collectStep ring wanted ⟨index, result, b⟩ =
              .next ⟨(index + 1) % ring.length, result, b⟩ := by
            simp only [collectStep, short, ↓reduceIte, here, new, Bool.false_eq_true]
          rw [iterate_next (step a)] at ended
          exact (returns_next (step [])).mpr (ih ended)
    · have step (b : Alloc) : collectStep ring wanted ⟨index, result, b⟩ =
          .done (some result, b) := by
        simp only [collectStep, short, ↓reduceIte]
      rw [iterate_done (step a)] at ended
      simp only [Outcome.done.injEq, Prod.mk.injEq, Option.some.injEq] at ended
      exact ended.1 ▸ returns_done (step [])

/-- The walk returns a list exactly when enough servers exist, and then the first
node of each server met, in the order they are met. -/
theorem collect_returns_iff {ring : NodeList} {start wanted : Nat} (inside : start < ring.length)
    (list : NodeList) :
    (∃ a rest, Returns (collectStep ring wanted) ⟨start, [], a⟩ (some list, rest)) ↔
      wanted ≤ distinct Node.addr ring ∧
        list = (fresh Node.addr [] (ring.rotate start)).take wanted := by
  constructor
  · rintro ⟨a, rest, returns⟩
    have erased : Returns (collectStep ring wanted) ⟨start, [], []⟩ (some list, []) :=
      collect_erase returns
    by_cases enough : wanted ≤ distinct Node.addr ring
    · have result := erased.unique ⟨_, collect_within_round inside enough⟩
      exact ⟨enough, Option.some.inj (Prod.mk.inj result).1⟩
    · exact absurd (collect_diverges inside (Nat.lt_of_not_le enough)) erased.not_diverges
  · rintro ⟨enough, rfl⟩
    exact ⟨[], [], _, collect_within_round inside enough⟩

/-- The ring as `ring_get_nodes_for_key` walks it for a key with this digest. -/
def clockwise (ring : NodeList) (hash : Digest) : NodeList := ring.rotate (searchStart ring hash)

/-- When `ring_get_nodes_for_key` returns a list, and which one. -/
theorem ringReturns_iff (sha1 : List UInt8 → Digest) (ring : NodeList) (wanted : Nat)
    (key : CString) (list : NodeList) :
    RingReturns sha1 ring wanted key list ↔
      (∃ node ∈ ring, (sha1 key.bytes).first.toNat ≤ node.sha.first.toNat) ∧
      wanted ≤ distinct Node.addr ring ∧
      list = (fresh Node.addr [] (clockwise ring (sha1 key.bytes))).take wanted := by
  constructor
  · rintro ⟨fuel, a, rest, ended⟩
    unfold ringGetNodesForKey at ended
    split at ended
    · contradiction
    · obtain ⟨i, search, collect⟩ := Outcome.bind_eq_done_iff.mp ended
      obtain ⟨some, rfl⟩ := (search_returns_iff ring _ i).mp ⟨fuel, search⟩
      exact ⟨some, (collect_returns_iff (searchStart_lt some) list).mp ⟨_, _, _, collect⟩⟩
  · rintro ⟨some, enough, rfl⟩
    obtain ⟨m, search⟩ := (search_returns_iff ring (sha1 key.bytes) _).mpr ⟨some, rfl⟩
    have collect := collect_within_round (searchStart_lt some) enough
    refine ⟨max m (ring.length + 1), [], [], ?_⟩
    simp only [ringGetNodesForKey, malloc_nil]
    rw [iterate_mono (Nat.le_max_left _ _) (by simp [search]), search]
    simp only [Outcome.bind]
    rw [iterate_mono (Nat.le_max_right _ _) (by simp [collect]), collect]
    rfl

theorem RingReturns.length {sha1 : List UInt8 → Digest} {ring list : NodeList} {wanted : Nat}
    {key : CString} (returns : RingReturns sha1 ring wanted key list) : list.length = wanted := by
  obtain ⟨_, enough, rfl⟩ := (ringReturns_iff ..).mp returns
  rw [List.length_take, length_fresh, clockwise, distinct_rotate]
  exact Nat.min_eq_left enough

theorem RingReturns.nodup {sha1 : List UInt8 → Digest} {ring list : NodeList} {wanted : Nat}
    {key : CString} (returns : RingReturns sha1 ring wanted key list) :
    (list.map Node.addr).Nodup := by
  obtain ⟨_, _, rfl⟩ := (ringReturns_iff ..).mp returns
  rw [List.map_take]
  exact (nodup_map_fresh (f := Node.addr) [] _).sublist (List.take_sublist _ _)

theorem RingReturns.unique {sha1 : List UInt8 → Digest} {ring first second : NodeList}
    {wanted : Nat} {key : CString} (one : RingReturns sha1 ring wanted key first)
    (two : RingReturns sha1 ring wanted key second) : first = second := by
  obtain ⟨_, _, rfl⟩ := (ringReturns_iff ..).mp one
  obtain ⟨_, _, rfl⟩ := (ringReturns_iff ..).mp two
  rfl

end PpsDht
