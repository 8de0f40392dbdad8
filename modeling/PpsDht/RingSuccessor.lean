import PpsDht.RingPlacement

/-! The node the search of `ring_get_nodes_for_key` stops at, against the successor of
the key: the node of the least digest not below the key's. The search sees the first byte
of the key's digest only, and the order of the ring ends at the first NUL of a digest. -/
namespace PpsDht

open CLib Loop

/-- All bytes of a digest; lists of numbers are ordered lexicographically. -/
def Digest.unsigned (d : Digest) : List Nat := d.bytes.map UInt8.toNat

theorem Digest.unsigned_injective : Function.Injective Digest.unsigned := by
  intro d e same
  have bytes : d.bytes = e.bytes :=
    List.map_injective_iff.mpr (fun _ _ equal => UInt8.toNat_inj.mp equal) same
  cases d; cases e
  simp_all

theorem Digest.unsigned_lt_of_first_lt {d e : Digest} (less : d.first.toNat < e.first.toNat) :
    d.unsigned < e.unsigned := by
  obtain ⟨tail, whole⟩ := d.eq_cons
  obtain ⟨tail', whole'⟩ := e.eq_cons
  rw [unsigned, unsigned, whole, whole', List.map_cons, List.map_cons, List.cons_lt_cons_iff]
  exact .inl less

theorem Digest.first_le_of_unsigned_le {d e : Digest} (le : d.unsigned ≤ e.unsigned) :
    d.first.toNat ≤ e.first.toNat := by
  by_contra less
  exact absurd (unsigned_lt_of_first_lt (Nat.lt_of_not_le less)) (not_lt.mpr le)

theorem Node.rank_le_of_unsigned_le {a b : Node} (le : a.sha.unsigned ≤ b.sha.unsigned) :
    a.rank ≤ b.rank := by
  by_contra less
  exact absurd (lt_of_cut_lt (not_le.mp less)) (not_lt.mpr le)

/-- The node of the least digest not below the key's. -/
structure Successor (ring : NodeList) (hash : Digest) (node : Node) : Prop where
  member : node ∈ ring
  reached : hash.unsigned ≤ node.sha.unsigned
  least : ∀ other ∈ ring, hash.unsigned ≤ other.sha.unsigned →
    node.sha.unsigned ≤ other.sha.unsigned

/-- Wherever the search stops inside the ring, it stops at the successor. -/
def FindsSuccessor (ring : NodeList) (hash : Digest) : Prop :=
  ∀ i, Returns (searchStep ring (keyNode hash)) 0 i →
    ∃ node, ring[i]? = some node ∧ Successor ring hash node

theorem search_stop {ring : NodeList} {hash : Digest} {i : Nat}
    (sorted : ring.Pairwise fun a b => a.rank ≤ b.rank)
    (returns : Returns (searchStep ring (keyNode hash)) 0 i) :
    ring[i]? = (ring.filter fun n => !behind hash n).head? := by
  obtain ⟨_, rfl⟩ := (search_returns_iff ring hash i).mp returns
  have whole := List.takeWhile_append_dropWhile (p := behind hash) (l := ring)
  have start : ring.drop (searchStart ring hash) = ring.dropWhile (behind hash) := calc
    ring.drop (searchStart ring hash)
      = (ring.takeWhile (behind hash) ++ ring.dropWhile (behind hash)).drop
          (ring.takeWhile (behind hash)).length := by rw [whole]; rfl
    _ = ring.dropWhile (behind hash) := List.drop_left' rfl
  rw [← List.head?_drop, start, (split_behind hash sorted).2]

theorem search_inside {ring : NodeList} {hash : Digest} {i : Nat}
    (returns : Returns (searchStep ring (keyNode hash)) 0 i) : ∃ node, ring[i]? = some node := by
  obtain ⟨ahead, rfl⟩ := (search_returns_iff ring hash i).mp returns
  exact ⟨_, List.getElem?_eq_getElem (searchStart_lt ahead)⟩

theorem search_stops {ring : NodeList} {hash : Digest} {node : Node} (member : node ∈ ring)
    (ahead : hash.first.toNat ≤ node.sha.first.toNat) :
    Returns (searchStep ring (keyNode hash)) 0 (searchStart ring hash) :=
  (search_returns_iff ring hash _).mpr ⟨⟨node, member, ahead⟩, rfl⟩

theorem not_behind_iff (hash : Digest) (node : Node) :
    (!behind hash node) = true ↔ hash.first.toNat ≤ node.sha.first.toNat := by
  simp [behind]

/-- It is a node of least rank among those not behind the key. -/
theorem search_stop_least {ring : NodeList} {hash : Digest} {i : Nat} {node : Node}
    (sorted : ring.Pairwise fun a b => a.rank ≤ b.rank)
    (returns : Returns (searchStep ring (keyNode hash)) 0 i) (here : ring[i]? = some node) :
    node ∈ ring ∧ hash.first.toNat ≤ node.sha.first.toNat ∧
      ∀ other ∈ ring, hash.first.toNat ≤ other.sha.first.toNat → node.rank ≤ other.rank := by
  have first := search_stop sorted returns
  obtain ⟨rest, whole⟩ := List.head?_eq_some_iff.mp (first.symm.trans here)
  have inside : node ∈ ring.filter fun n => !behind hash n := whole ▸ List.mem_cons_self
  obtain ⟨member, ahead⟩ := List.mem_filter.mp inside
  refine ⟨member, (not_behind_iff hash node).mp ahead, fun other member' ahead' => ?_⟩
  have inside' : other ∈ ring.filter fun n => !behind hash n :=
    List.mem_filter.mpr ⟨member', (not_behind_iff hash other).mpr ahead'⟩
  have order := sorted.sublist (List.filter_sublist (p := fun n => !behind hash n) (l := ring))
  rw [whole] at inside' order
  rcases List.mem_cons.mp inside' with rfl | later
  · exact le_refl _
  · exact (List.pairwise_cons.mp order).1 other later

/-- No node with the first byte of the key's digest has a smaller digest. -/
def NoneBelow (list : NodeList) (hash : Digest) : Prop :=
  ∀ node ∈ list, node.sha.first = hash.first → hash.unsigned ≤ node.sha.unsigned

/-- Where the comparator ties different digests not behind the key, a node not behind
the key sorts before them. -/
def TiesPassed (list : NodeList) (hash : Digest) : Prop :=
  ∀ a ∈ list, ∀ b ∈ list, hash.first.toNat ≤ a.sha.first.toNat → nodeCmpSha a b = 0 →
    a.sha ≠ b.sha → ∃ c ∈ list, hash.first.toNat ≤ c.sha.first.toNat ∧ nodeCmpSha c a < 0

theorem NoneBelow.reached {list : NodeList} {hash : Digest} (none : NoneBelow list hash)
    {node : Node} (member : node ∈ list) (ahead : hash.first.toNat ≤ node.sha.first.toNat) :
    hash.unsigned ≤ node.sha.unsigned := by
  rcases Nat.lt_or_eq_of_le ahead with above | same
  · exact (Digest.unsigned_lt_of_first_lt above).le
  · exact none node member (UInt8.toNat_inj.mp same.symm)

theorem findsSuccessor_of_list {list ring : NodeList} {hash : Digest} (init : RingInit list ring)
    (none : NoneBelow list hash) (passed : TiesPassed list hash) : FindsSuccessor ring hash := by
  intro i returns
  obtain ⟨node, here⟩ := search_inside returns
  obtain ⟨member, ahead, least⟩ := search_stop_least init.rank_sorted returns here
  have inList {n : Node} (inside : n ∈ ring) : n ∈ list := init.perm.mem_iff.mp inside
  refine ⟨node, here, member, none.reached (inList member) ahead, fun other inside above => ?_⟩
  by_contra smaller
  have below : other.sha.unsigned < node.sha.unsigned := not_le.mp smaller
  have first := Digest.first_le_of_unsigned_le above
  have tie : node.rank = other.rank :=
    le_antisymm (least other inside first) (Node.rank_le_of_unsigned_le below.le)
  have apart : node.sha ≠ other.sha := fun same => below.ne (congrArg Digest.unsigned same.symm)
  obtain ⟨c, hc, ahead', before⟩ := passed node (inList member) other (inList inside) ahead
    ((nodeCmpSha_eq_zero_iff _ _).mpr tie) apart
  have lowest := least c (init.perm.mem_iff.mpr hc) ahead'
  exact absurd ((nodeCmpSha_neg_iff _ _).mp before) (not_lt.mpr lowest)

/-- Sorted before the nodes it ties with, a node is stopped at when no node not behind
the key is of lower rank. -/
theorem sortedWith_stop {list : NodeList} {hash : Digest} {node : Node} (member : node ∈ list)
    (ahead : hash.first.toNat ≤ node.sha.first.toNat)
    (lowest : ∀ c ∈ list, hash.first.toNat ≤ c.sha.first.toNat → node.rank ≤ c.rank) {i : Nat}
    (returns : Returns (searchStep (sortedWith node list) (keyNode hash)) 0 i) :
    (sortedWith node list)[i]? = some node := by
  have front : (sortByRank (list.filter fun n => decide (n.rank < node.rank))).filter
      (fun n => !behind hash n) = [] := by
    refine List.filter_eq_nil_iff.mpr fun c member' ahead' => ?_
    obtain ⟨inside, before⟩ := List.mem_filter.mp ((sortByRank_perm _).mem_iff.mp member')
    exact absurd (of_decide_eq_true before)
      (not_lt.mpr (lowest c inside ((not_behind_iff hash c).mp ahead')))
  rw [search_stop (sortedWith_ringInit member).rank_sorted returns, sortedWith,
    List.filter_append, front, List.nil_append,
    List.filter_cons_of_pos (p := fun n => !behind hash n) ((not_behind_iff hash node).mpr ahead),
    List.head?_cons]

/-- When the successor is found in every sorted ring, a node of lowest rank that is not
behind the key has the least digest of those not below the key's. -/
theorem lowest_least {list : NodeList} {hash : Digest} {x y : Node}
    (finds : ∀ ring, RingInit list ring → FindsSuccessor ring hash) (hx : x ∈ list) (hy : y ∈ list)
    (ahead : hash.first.toNat ≤ x.sha.first.toNat)
    (lowest : ∀ c ∈ list, hash.first.toNat ≤ c.sha.first.toNat → x.rank ≤ c.rank) :
    hash.unsigned ≤ x.sha.unsigned ∧
      (hash.unsigned ≤ y.sha.unsigned → x.sha.unsigned ≤ y.sha.unsigned) := by
  have init := sortedWith_ringInit hx
  have returns := search_stops (init.perm.mem_iff.mpr hx) ahead
  obtain ⟨node, here, successor⟩ := finds _ init _ returns
  obtain rfl := Option.some.inj ((sortedWith_stop hx ahead lowest returns).symm.trans here)
  exact ⟨successor.reached, successor.least y (init.perm.mem_iff.mpr hy)⟩

theorem noneBelow_of_finds {list : NodeList} {hash : Digest}
    (finds : ∀ ring, RingInit list ring → FindsSuccessor ring hash) : NoneBelow list hash := by
  intro x member byte
  have init := sortedWith_ringInit member
  have ahead : hash.first.toNat ≤ x.sha.first.toNat := byte ▸ Nat.le_refl _
  have returns := search_stops (init.perm.mem_iff.mpr member) ahead
  obtain ⟨node, here, successor⟩ := finds _ init _ returns
  have lowest := (search_stop_least init.rank_sorted returns here).2.2
  by_contra below
  have smaller := lt_of_lt_of_le (not_le.mp below) successor.reached
  -- then `x` ties with the node stopped at, and so comes before it
  have rank_le (c : Node) (inside : c ∈ list) (ahead' : hash.first.toNat ≤ c.sha.first.toNat) :
      x.rank ≤ c.rank :=
    (Node.rank_le_of_unsigned_le smaller.le).trans
      (lowest c (init.perm.mem_iff.mpr inside) ahead')
  exact below (lowest_least finds member member ahead rank_le).1

theorem tiesPassed_of_finds {list : NodeList} {hash : Digest}
    (finds : ∀ ring, RingInit list ring → FindsSuccessor ring hash) : TiesPassed list hash := by
  intro a ha b hb ahead tie apart
  by_contra alone
  have lowest : ∀ c ∈ list, hash.first.toNat ≤ c.sha.first.toNat → a.rank ≤ c.rank := by
    intro c member ahead'
    by_contra before
    exact alone ⟨c, member, ahead', (nodeCmpSha_neg_iff c a).mpr (not_le.mp before)⟩
  have same : a.rank = b.rank := (nodeCmpSha_eq_zero_iff a b).mp tie
  have ahead' : hash.first.toNat ≤ b.sha.first.toNat :=
    ahead.trans (Node.first_le_of_rank_le same.le)
  -- whichever of the two is sorted first is stopped at, and found not above the other
  have first := lowest_least finds ha hb ahead lowest
  have second := lowest_least finds hb ha ahead' (same ▸ lowest)
  exact apart (Digest.unsigned_injective
    (le_antisymm (first.2 second.1) (second.2 first.1)))

/-- The successor is found in every sorted ring exactly when no node shares the first
byte of the key's digest with a smaller digest, and no tie among nodes not behind the key
can be the first to be met. -/
theorem search_successor_iff (sha1 : List UInt8 → Digest) (list : NodeList) (key : CString) :
    (∀ ring, RingInit list ring → FindsSuccessor ring (sha1 key.bytes)) ↔
      NoneBelow list (sha1 key.bytes) ∧ TiesPassed list (sha1 key.bytes) := by
  constructor
  · intro finds
    exact ⟨noneBelow_of_finds finds, tiesPassed_of_finds finds⟩
  · rintro ⟨none, passed⟩ ring init
    exact findsSuccessor_of_list init none passed

def Digest.ofFirstTwo (first second : UInt8) : Digest :=
  ⟨first :: second :: List.replicate 18 0, by simp [shaDigestLength]⟩

/-- The key's digest starts with 7 and 1, and the search stops at a node with 7 and 0. -/
theorem search_stops_below_key :
    ¬ ∀ (sha1 : List UInt8 → Digest) (list ring : NodeList) (key : CString),
      RingInit list ring → FindsSuccessor ring (sha1 key.bytes) := by
  intro finds
  have init : RingInit [⟨Digest.ofFirst 7, ⟨0, 0⟩, 0⟩] [⟨Digest.ofFirst 7, ⟨0, 0⟩, 0⟩] :=
    ⟨List.Perm.refl _, List.pairwise_singleton _ _⟩
  have returns : Returns (searchStep [⟨Digest.ofFirst 7, ⟨0, 0⟩, 0⟩]
      (keyNode (Digest.ofFirstTwo 7 1))) 0 0 := ⟨1, by decide⟩
  obtain ⟨node, here, successor⟩ :=
    finds (fun _ => Digest.ofFirstTwo 7 1) _ _ CString.empty init 0 returns
  obtain rfl := Option.some.inj here
  exact absurd successor.reached (by decide)

end PpsDht
