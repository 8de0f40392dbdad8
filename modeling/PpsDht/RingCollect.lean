import PpsDht.RingWalk

/-! The collecting loop of `ring_get_nodes_for_key` by the indices it visits: when it
ends, after how many iterations, and which nodes it then holds. -/
namespace PpsDht

open CLib Loop FirstSeen

/-- The node visited in iteration `k` of a walk from `start`. -/
def visited (ring : NodeList) (start k : Nat) : Option Node := ring[(start + k) % ring.length]?

/-- The iterations of the first round that meet a server for the first time. -/
def newVisits (ring : NodeList) (start : Nat) : List Nat :=
  newPositions (fun k => (visited ring start k).map Node.addr) ring.length

theorem getElem?_rotate_visited (ring : NodeList) (start : Nat) {k : Nat}
    (below : k < ring.length) : (ring.rotate start)[k]? = visited ring start k := by
  rw [List.getElem?_rotate below, visited, Nat.add_comm]

theorem map_fresh_rotate (ring : NodeList) (start : Nat) :
    (fresh Node.addr [] (ring.rotate start)).map some =
      (newVisits ring start).map (visited ring start) := by
  have positions : newPositions (fun k => ((ring.rotate start)[k]?).map Node.addr) ring.length =
      newVisits ring start :=
    newPositions_congr fun k below =>
      congrArg (Option.map Node.addr) (getElem?_rotate_visited ring start below)
  rw [map_fresh_positions, List.length_rotate, positions]
  exact List.map_congr_left fun k member =>
    getElem?_rotate_visited ring start (lt_of_mem_newPositions member)

/-- The loop ends exactly when as many servers exist as are wanted. It has then passed
through its body at most once for every node of the ring, and holds the nodes at the
first `wanted` iterations that met a new server. -/
theorem collect_first_distinct {ring : NodeList} {start : Nat} (inside : start < ring.length)
    (wanted : Nat) :
    ((∃ result, Returns (collectStep ring wanted) ⟨start, [], []⟩ result) ↔
      wanted ≤ distinct Node.addr ring) ∧
    (wanted ≤ distinct Node.addr ring →
      ∃ list, iterate (collectStep ring wanted) (ring.length + 1) ⟨start, [], []⟩ =
          .done (some list, []) ∧
        list.length = wanted ∧
        list.map some = ((newVisits ring start).take wanted).map (visited ring start)) := by
  refine ⟨⟨?_, fun enough => ⟨_, _, collect_within_round inside enough⟩⟩, fun enough => ?_⟩
  · rintro ⟨result, returns⟩
    by_contra few
    exact returns.not_diverges (collect_diverges inside (Nat.lt_of_not_le few))
  · refine ⟨_, collect_within_round inside enough, ?_, ?_⟩
    · rw [List.length_take, length_fresh, distinct_rotate]
      exact Nat.min_eq_left enough
    · rw [List.map_take, map_fresh_rotate, List.map_take]

def threeNodes : NodeList :=
  [⟨Digest.ofFirst 6, ⟨2, 0⟩, 0⟩, ⟨Digest.ofFirst 7, ⟨1, 0⟩, 0⟩, ⟨Digest.ofFirst 8, ⟨2, 0⟩, 0⟩]

theorem collect_first_distinct_three :
    ∃ list, iterate (collectStep threeNodes 2) 4 ⟨2, [], []⟩ = .done (some list, []) ∧
      list.length = 2 ∧ list.map some = [threeNodes[2]?, threeNodes[1]?] := by
  have inside : 2 < threeNodes.length := by decide
  exact (collect_first_distinct inside 2).2 (by decide)

end PpsDht
