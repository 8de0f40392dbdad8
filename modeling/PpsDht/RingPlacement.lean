import PpsDht.RingWalk
import Mathlib.Data.Prod.Lex
import Mathlib.Data.List.Pairwise

/-! Placement compared between two rings: the same nodes listed in another order, and
the same nodes with a server added. A sorted ring walked from a key's start is the
nodes not behind the key followed by those behind it, and both comparisons follow. -/
namespace PpsDht

open CLib Loop FirstSeen

theorem behind_of_rank_le {hash : Digest} {a b : Node} (le : a.rank ≤ b.rank)
    (skipped : behind hash b = true) : behind hash a = true := by
  have first := Node.first_le_of_rank_le le
  simp only [behind, decide_eq_true_eq] at skipped ⊢
  omega

theorem split_behind (hash : Digest) {ring : NodeList}
    (sorted : ring.Pairwise fun a b => a.rank ≤ b.rank) :
    ring.takeWhile (behind hash) = ring.filter (behind hash) ∧
      ring.dropWhile (behind hash) = ring.filter (fun n => !behind hash n) := by
  induction ring with
  | nil => exact ⟨rfl, rfl⟩
  | cons node ring ih =>
    obtain ⟨after, rest⟩ := List.pairwise_cons.mp sorted
    by_cases skipped : behind hash node = true
    · simp [skipped, ih rest]
    · -- no later node is behind the key either
      have ahead : ∀ n ∈ ring, ¬ behind hash n = true := fun n member later =>
        skipped (behind_of_rank_le (after n member) later)
      have none : ring.filter (behind hash) = [] := List.filter_eq_nil_iff.mpr ahead
      have all : ring.filter (fun n => !behind hash n) = ring :=
        List.filter_eq_self.mpr fun n member => by simpa using ahead n member
      simp [skipped, none, all]

theorem clockwise_eq_filter (hash : Digest) {ring : NodeList}
    (sorted : ring.Pairwise fun a b => a.rank ≤ b.rank) :
    clockwise ring hash =
      ring.filter (fun n => !behind hash n) ++ ring.filter (behind hash) := by
  obtain ⟨front, back⟩ := split_behind hash sorted
  have whole := List.takeWhile_append_dropWhile (p := behind hash) (l := ring)
  calc clockwise ring hash
      = (ring.takeWhile (behind hash) ++ ring.dropWhile (behind hash)).rotate
          (ring.takeWhile (behind hash)).length := by rw [whole]; rfl
    _ = ring.dropWhile (behind hash) ++ ring.takeWhile (behind hash) :=
          List.rotate_append_length_eq _ _
    _ = _ := by rw [front, back]

theorem clockwise_perm (ring : NodeList) (hash : Digest) : (clockwise ring hash).Perm ring :=
  List.rotate_perm ring _

/-! Two orders of one server file. -/

/-- Where a node stands on the walk for a key. -/
def walkRank (hash : Digest) (node : Node) : Bool ×ₗ List Nat :=
  toLex (behind hash node, node.rank)

theorem walkRank_lt {hash : Digest} {a b : Node} (same : behind hash a = behind hash b)
    (less : a.rank < b.rank) : walkRank hash a < walkRank hash b :=
  Prod.Lex.toLex_lt_toLex.mpr (.inr ⟨same, less⟩)

theorem walkRank_le {hash : Digest} {a b : Node} (same : behind hash a = behind hash b)
    (le : a.rank ≤ b.rank) : walkRank hash a ≤ walkRank hash b :=
  Prod.Lex.toLex_le_toLex.mpr (.inr ⟨same, le⟩)

theorem clockwise_sorted (hash : Digest) {ring : NodeList}
    (sorted : ring.Pairwise fun a b => a.rank ≤ b.rank) :
    (clockwise ring hash).Pairwise fun a b => walkRank hash a ≤ walkRank hash b := by
  rw [clockwise_eq_filter hash sorted, List.pairwise_append]
  refine ⟨?_, ?_, ?_⟩
  · refine (sorted.sublist List.filter_sublist).imp_of_mem fun ha hb le => walkRank_le ?_ le
    simp only [List.mem_filter, Bool.not_eq_true'] at ha hb
    rw [ha.2, hb.2]
  · refine (sorted.sublist List.filter_sublist).imp_of_mem fun ha hb le => walkRank_le ?_ le
    rw [(List.mem_filter.mp ha).2, (List.mem_filter.mp hb).2]
  · intro a ha b hb
    simp only [List.mem_filter, Bool.not_eq_true'] at ha hb
    apply le_of_lt
    apply Prod.Lex.toLex_lt_toLex.mpr
    rw [ha.2, hb.2]
    exact .inl Bool.false_lt_true

/-- The calls that return on both rings return the same servers in the same order,
however each ring was sorted. -/
def PlacementAgrees (first second : NodeList) : Prop :=
  ∀ ring ring', RingInit first ring → RingInit second ring' →
    ∀ sha1 key wanted list list', RingReturns sha1 ring wanted key list →
      RingReturns sha1 ring' wanted key list' → list.map Node.addr = list'.map Node.addr

/-- Whenever the comparator ties two nodes of different servers, a node of one of the
two with the same first digest byte sorts before them. -/
def TiesCovered (list : NodeList) : Prop :=
  ∀ a ∈ list, ∀ b ∈ list, nodeCmpSha a b = 0 → a.addr ≠ b.addr →
    ∃ c ∈ list, c.sha.first = a.sha.first ∧ nodeCmpSha c a < 0 ∧
      (c.addr = a.addr ∨ c.addr = b.addr)

theorem TiesCovered.tiesHidden {list : NodeList} (covered : TiesCovered list) (hash : Digest) :
    TiesHidden Node.addr (walkRank hash) list := by
  intro a ha b hb tie apart
  have equal : a.rank = b.rank := congrArg (fun x => (ofLex x).2) tie
  obtain ⟨c, hc, byte, before, addr⟩ :=
    covered a ha b hb ((nodeCmpSha_eq_zero_iff a b).mpr equal) apart
  have same : behind hash c = behind hash a := by simp only [behind, byte]
  exact ⟨c, hc, walkRank_lt same ((nodeCmpSha_neg_iff c a).mp before), addr⟩

theorem TiesCovered.agrees {first second : NodeList} (perm : first.Perm second)
    (covered : TiesCovered first) : PlacementAgrees first second := by
  intro ring ring' init init' sha1 key wanted list list' one two
  obtain ⟨_, _, rfl⟩ := (ringReturns_iff ..).mp one
  obtain ⟨_, _, rfl⟩ := (ringReturns_iff ..).mp two
  have walks : (clockwise ring (sha1 key.bytes)).Perm (clockwise ring' (sha1 key.bytes)) :=
    (clockwise_perm ring _).trans
      (init.perm.trans (perm.trans (init'.perm.symm.trans (clockwise_perm ring' _).symm)))
  have hidden := (covered.tiesHidden (sha1 key.bytes)).perm
    (init.perm.symm.trans (clockwise_perm ring (sha1 key.bytes)).symm)
  rw [List.map_take, List.map_take,
    map_fresh_eq_of_perm walks (clockwise_sorted _ init.rank_sorted)
      (clockwise_sorted _ init'.rank_sorted) hidden]

/-! Without cover a tie can be broken either way. -/

def sortedWith (node : Node) (list : NodeList) : NodeList :=
  sortByRank (list.filter fun n => decide (n.rank < node.rank)) ++
    node :: sortByRank ((list.filter fun n => !decide (n.rank < node.rank)).erase node)

theorem sortedWith_ringInit {node : Node} {list : NodeList} (member : node ∈ list) :
    RingInit list (sortedWith node list) := by
  have kept : node ∈ list.filter fun n => !decide (n.rank < node.rank) := by simpa using member
  constructor
  · have late := ((sortByRank_perm _).cons node).trans (List.perm_cons_erase kept).symm
    exact ((sortByRank_perm _).append late).trans (List.filter_append_perm _ list)
  · suffices sorted : (sortedWith node list).Pairwise fun a b => a.rank ≤ b.rank from
      sorted.imp fun le => (nodeCmpSha_nonpos_iff _ _).mpr le
    have above (n : Node) (later : n ∈ sortByRank
        ((list.filter fun n => !decide (n.rank < node.rank)).erase node)) : node.rank ≤ n.rank := by
      have inside := List.mem_of_mem_erase ((sortByRank_perm _).mem_iff.mp later)
      simpa using (List.mem_filter.mp inside).2
    rw [sortedWith, List.pairwise_append, List.pairwise_cons]
    refine ⟨sortByRank_sorted _, ⟨above, sortByRank_sorted _⟩, ?_⟩
    intro a ha b hb
    have below : a.rank < node.rank := by
      simpa using (List.mem_filter.mp ((sortByRank_perm _).mem_iff.mp ha)).2
    rcases List.mem_cons.mp hb with rfl | later
    · exact below.le
    · exact below.le.trans (above b later)

/-- The nodes a walk from the first byte of `node` meets before it. -/
def metBefore (node : Node) (list : NodeList) : NodeList :=
  list.filter fun n => !behind node.sha n && decide (n.rank < node.rank)

theorem mem_metBefore {node c : Node} {list : NodeList} :
    c ∈ metBefore node list ↔ c ∈ list ∧ c.sha.first = node.sha.first ∧ nodeCmpSha c node < 0 := by
  simp only [metBefore, List.mem_filter, Bool.and_eq_true, Bool.not_eq_true', behind,
    decide_eq_false_iff_not, decide_eq_true_eq, nodeCmpSha_neg_iff, not_lt]
  constructor
  · rintro ⟨member, ahead, before⟩
    have le := Node.first_le_of_rank_le before.le
    exact ⟨member, UInt8.toNat_inj.mp (Nat.le_antisymm le ahead), before⟩
  · rintro ⟨member, byte, before⟩
    exact ⟨member, byte ▸ Nat.le_refl _, before⟩

theorem clockwise_sortedWith {node : Node} {list : NodeList} (member : node ∈ list) :
    ∃ met rest, clockwise (sortedWith node list) node.sha = met ++ node :: rest ∧
      met.Perm (metBefore node list) := by
  have ahead : (!behind node.sha node) = true := by simp [behind]
  have met := (sortByRank_perm (list.filter fun n => decide (n.rank < node.rank))).filter
    fun n => !behind node.sha n
  rw [List.filter_filter] at met
  rw [clockwise_eq_filter _ (sortedWith_ringInit member).rank_sorted]
  conv in (sortedWith node list).filter (fun n => !behind node.sha n) => rw [sortedWith]
  rw [List.filter_append, List.filter_cons_of_pos (p := fun n => !behind node.sha n) ahead,
    List.append_assoc, List.cons_append]
  exact ⟨_, _, rfl, met⟩

/-- When the server of `node` is not met before it, a walk for its first byte that wants
one server more than are met before ends with `node`. -/
theorem ringReturns_sortedWith {node : Node} {list : NodeList} (member : node ∈ list)
    (unseen : ∀ c ∈ metBefore node list, c.addr ≠ node.addr) :
    ∃ before, RingReturns (fun _ => node.sha) (sortedWith node list)
      (distinct Node.addr (metBefore node list) + 1) CString.empty (before ++ [node]) := by
  have inside : ∃ n ∈ sortedWith node list, node.sha.first.toNat ≤ n.sha.first.toNat :=
    ⟨node, (sortedWith_ringInit member).perm.mem_iff.mpr member, Nat.le_refl _⟩
  obtain ⟨met, rest, circle, same⟩ := clockwise_sortedWith member
  have new : node.addr ∉ (fresh Node.addr [] met).map Node.addr := by
    intro seen
    obtain ⟨c, hc, addr⟩ := List.mem_map.mp ((mem_map_fresh _ _ _).mp seen).1
    exact unseen c (same.mem_iff.mp hc) addr
  have kept : fresh Node.addr [] (clockwise (sortedWith node list) node.sha) =
      (fresh Node.addr [] met ++ [node]) ++
        fresh Node.addr ((met ++ [node]).map Node.addr) rest := by
    rw [circle, List.append_cons, fresh_append, fresh_concat, if_neg new, List.nil_append]
  have count : distinct Node.addr (metBefore node list) + 1 =
      (fresh Node.addr [] met ++ [node]).length := by
    rw [List.length_append, List.length_singleton, length_fresh, distinct_perm same]
  refine ⟨fresh Node.addr [] met, (ringReturns_iff ..).mpr ⟨inside, ?_, ?_⟩⟩
  · have whole : distinct Node.addr (sortedWith node list) =
        (fresh Node.addr [] (clockwise (sortedWith node list) node.sha)).length := by
      rw [length_fresh, distinct_perm (clockwise_perm _ _)]
    rw [whole, kept, count]
    exact (List.sublist_append_left _ _).length_le
  · rw [kept, count, List.take_left]

/-- Only the first byte of a key's digest is looked at. -/
theorem RingReturns.of_first {sha1 other : List UInt8 → Digest}
    (same : ∀ bytes, (sha1 bytes).first = (other bytes).first) {ring list : NodeList}
    {wanted : Nat} {key : CString} (returns : RingReturns sha1 ring wanted key list) :
    RingReturns other ring wanted key list := by
  have skipped : behind (sha1 key.bytes) = behind (other key.bytes) := by
    funext node
    simp only [behind, same]
  obtain ⟨some, enough, result⟩ := (ringReturns_iff ..).mp returns
  simp only [clockwise, searchStart, skipped] at result
  exact (ringReturns_iff ..).mpr ⟨same key.bytes ▸ some, enough, result⟩

theorem TiesCovered.of_agrees {first second : NodeList} (perm : first.Perm second)
    (agrees : PlacementAgrees first second) : TiesCovered first := by
  intro a ha b hb tie apart
  by_contra uncovered
  push Not at uncovered
  have rank := (nodeCmpSha_eq_zero_iff a b).mp tie
  have byte : a.sha.first = b.sha.first := UInt8.toNat_inj.mp
    (Nat.le_antisymm (Node.first_le_of_rank_le rank.le) (Node.first_le_of_rank_le rank.ge))
  have met : (metBefore a first).Perm (metBefore b second) := by
    have same : metBefore b second = metBefore a second := by
      simp only [metBefore, behind, rank, byte]
    exact same ▸ perm.filter _
  have hidden (c : Node) (hc : c ∈ metBefore a first) : c.addr ≠ a.addr ∧ c.addr ≠ b.addr := by
    obtain ⟨member, shown, before⟩ := mem_metBefore.mp hc
    exact uncovered c member shown before
  -- sorted one way the walk ends with `a`, sorted the other way with `b`
  obtain ⟨beforeA, one⟩ := ringReturns_sortedWith ha fun c hc => (hidden c hc).1
  obtain ⟨beforeB, two⟩ := ringReturns_sortedWith (perm.mem_iff.mp hb) fun c hc =>
    (hidden c (met.mem_iff.mpr hc)).2
  rw [← distinct_perm met] at two
  have addrs := agrees _ _ (sortedWith_ringInit ha) (sortedWith_ringInit (perm.mem_iff.mp hb))
    _ _ _ _ _ one (two.of_first fun _ => byte.symm)
  have last := congrArg List.getLast? addrs
  simp only [List.map_append, List.map_cons, List.map_nil, List.getLast?_concat,
    Option.some.injEq] at last
  exact apart last

/-- Two clients with differently ordered server files agree on every placement exactly
when every tie between two servers is covered. -/
theorem placement_agrees_iff {first second : NodeList} (perm : first.Perm second) :
    PlacementAgrees first second ↔ TiesCovered first :=
  ⟨TiesCovered.of_agrees perm, TiesCovered.agrees perm⟩

def tiedNode (byte last : UInt8) (port : UInt16) : Node :=
  ⟨⟨byte :: 0 :: last :: List.replicate 17 0, by simp [shaDigestLength]⟩, ⟨port, 0⟩, 0⟩

theorem placement_agrees_swapped :
    PlacementAgrees [tiedNode 7 1 1, tiedNode 8 1 2] [tiedNode 8 1 2, tiedNode 7 1 1] := by
  apply (placement_agrees_iff (List.Perm.swap _ _ _)).mpr
  intro a ha b hb tie apart
  exfalso
  revert a b
  decide

/-- Two different digests that agree up to a NUL byte are left in file order. -/
theorem placement_depends_on_order :
    ¬ ∀ first second : NodeList, first.Perm second →
      first.Pairwise (fun a b => a.sha ≠ b.sha) → PlacementAgrees first second := by
  intro agrees
  have order := agrees [tiedNode 7 1 1, tiedNode 7 2 2] [tiedNode 7 2 2, tiedNode 7 1 1]
    (List.Perm.swap _ _ _) (by decide)
  have covered := TiesCovered.of_agrees (List.Perm.swap _ _ _) order
  exact absurd covered (by unfold TiesCovered; decide)

/-! The same nodes with one more server. -/

/-- A sorted ring of nodes the comparator tells apart is determined by its nodes. -/
theorem RingInit.unique {list ring ring' : NodeList} (init : RingInit list ring)
    (init' : RingInit list ring') (apart : list.Pairwise fun a b => nodeCmpSha a b ≠ 0) :
    ring = ring' := by
  have symmetric : Std.Symm fun a b : Node => nodeCmpSha a b ≠ 0 := ⟨fun a b differ same =>
    differ ((nodeCmpSha_eq_zero_iff a b).mpr ((nodeCmpSha_eq_zero_iff b a).mp same).symm)⟩
  refine (init.perm.trans init'.perm.symm).eq_of_pairwise ?_ init.rank_sorted init'.rank_sorted
  intro a b ha hb ab ba
  by_contra different
  exact apart.forall (init.perm.mem_iff.mp ha) (init'.perm.mem_iff.mp hb) different
    ((nodeCmpSha_eq_zero_iff a b).mpr (le_antisymm ab ba))

/-- Removing nodes commutes with sorting. -/
theorem RingInit.filter {list ring : NodeList} (init : RingInit list ring) (p : Node → Bool) :
    RingInit (list.filter p) (ring.filter p) :=
  ⟨init.perm.filter p, init.sorted.sublist List.filter_sublist⟩

/-- Removing nodes commutes with walking a sorted ring. -/
theorem clockwise_filter (hash : Digest) (p : Node → Bool) {list ring : NodeList}
    (init : RingInit list ring) :
    clockwise (ring.filter p) hash = (clockwise ring hash).filter p := by
  rw [clockwise_eq_filter hash init.rank_sorted, clockwise_eq_filter hash (init.filter p).rank_sorted,
    List.filter_append]
  simp only [List.filter_filter, Bool.and_comm]

/-- Adding a server to a ring of nodes told apart moves only what it must: without the
new server the replicas of a key are the old ones, but for the last of them when the
new server is among them. -/
theorem adding_server_moves (sha1 : List UInt8 → Digest) {list new ring ring' before after : NodeList}
    {server : SockAddr} {key : CString} {wanted : Nat}
    (outside : ∀ n ∈ list, n.addr ≠ server) (nodes : ∀ n ∈ new, n.addr = server)
    (apart : (list ++ new).Pairwise fun a b => nodeCmpSha a b ≠ 0)
    (init : RingInit list ring) (init' : RingInit (list ++ new) ring')
    (one : RingReturns sha1 ring wanted key before)
    (two : RingReturns sha1 ring' wanted key after) :
    after.filter (fun n => decide (n.addr ≠ server)) =
      before.take (if server ∈ after.map Node.addr then wanted - 1 else wanted) := by
  have old : (list ++ new).filter (fun n => decide (n.addr ≠ server)) = list := by
    rw [List.filter_append, List.filter_eq_self.mpr fun n hn => by simpa using outside n hn,
      List.filter_eq_nil_iff.mpr fun n hn => by simpa using nodes n hn, List.append_nil]
  have rings : ring'.filter (fun n => decide (n.addr ≠ server)) = ring := by
    have kept := init'.filter fun n => decide (n.addr ≠ server)
    rw [old] at kept
    exact kept.unique init (List.pairwise_append.mp apart).1
  obtain ⟨_, _, rfl⟩ := (ringReturns_iff ..).mp one
  obtain ⟨_, enough, rfl⟩ := (ringReturns_iff ..).mp two
  set circle := clockwise ring' (sha1 key.bytes) with circle_eq
  have shorter : wanted ≤ (fresh Node.addr [] circle).length := by
    rw [length_fresh, circle_eq, distinct_perm (clockwise_perm ring' _)]
    exact enough
  have walk : clockwise ring (sha1 key.bytes) = circle.filter (fun n => decide (n.addr ≠ server)) := by
    rw [← rings, clockwise_filter _ _ init']
  have stays := filter_fresh (f := Node.addr) (fun addr => decide (addr ≠ server)) [] circle
  have cut := filter_take_of_nodup server _ (nodup_map_fresh (f := Node.addr) [] circle) wanted shorter
  rw [stays, ← walk] at cut
  rw [cut, List.take_take]
  congr 1
  split <;> omega

theorem adding_server_moves_one :
    [(tiedNode 7 0 1), (tiedNode 8 0 2)].filter (fun n => decide (n.addr ≠ ⟨2, 0⟩)) =
      [tiedNode 7 0 1, tiedNode 9 0 3].take 1 := by
  have init : RingInit [tiedNode 7 0 1, tiedNode 9 0 3] [tiedNode 7 0 1, tiedNode 9 0 3] :=
    ⟨List.Perm.refl _, by decide⟩
  have init' : RingInit ([tiedNode 7 0 1, tiedNode 9 0 3] ++ [tiedNode 8 0 2])
      [tiedNode 7 0 1, tiedNode 8 0 2, tiedNode 9 0 3] :=
    ⟨by decide, by decide⟩
  have one : RingReturns (fun _ => Digest.ofFirst 7) [tiedNode 7 0 1, tiedNode 9 0 3] 2
      CString.empty [tiedNode 7 0 1, tiedNode 9 0 3] := ⟨4, [], [], by decide⟩
  have two : RingReturns (fun _ => Digest.ofFirst 7)
      [tiedNode 7 0 1, tiedNode 8 0 2, tiedNode 9 0 3] 2
      CString.empty [tiedNode 7 0 1, tiedNode 8 0 2] := ⟨4, [], [], by decide⟩
  exact adding_server_moves _ (by decide) (by decide) (by decide) init init' one two

end PpsDht
