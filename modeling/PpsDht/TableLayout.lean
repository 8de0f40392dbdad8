import PpsDht.TableMemory

/-! Where the nodes of a table are. A layout gives the addresses of every block of a table;
its blocks are then fixed, and so is the table of lists that it stands for. The rules of
this file say what the accesses of `hashtable.c` do to memory that holds given blocks. -/
namespace PpsDht

open CLib Loop Heap Prog

/-- A node with the addresses of its three blocks. -/
structure Link where
  address : Ptr
  keyAddress : Ptr
  valueAddress : Ptr
  entry : KvPair

def Link.blocks (granted : Nat) (l : Link) (next : Ptr) : List (Ptr × Cell) :=
  [(l.address, .node granted ⟨l.keyAddress, l.valueAddress, next⟩),
    (l.keyAddress, .string l.entry.key), (l.valueAddress, .string l.entry.value)]

def headOf (chain : List Link) : Ptr := first Link.address 0 chain

def chainBlocks (granted : Nat) (chain : List Link) : List (Ptr × Cell) :=
  segment Link.address (Link.blocks granted) 0 chain

@[simp] theorem headOf_nil : headOf [] = 0 := rfl

@[simp] theorem headOf_cons (l : Link) (chain : List Link) : headOf (l :: chain) = l.address := rfl

@[simp] theorem chainBlocks_nil (granted : Nat) : chainBlocks granted [] = [] := rfl

@[simp] theorem chainBlocks_cons (granted : Nat) (l : Link) (chain : List Link) :
    chainBlocks granted (l :: chain) = l.blocks granted (headOf chain) ++ chainBlocks granted chain :=
  rfl

structure Layout where
  address : Ptr
  elements : Ptr
  chains : List (List Link)

namespace Layout

def table (l : Layout) : Htable := ⟨l.chains.map fun chain => chain.map Link.entry⟩

def heads (l : Layout) : List Ptr := l.chains.map headOf

def blocks (granted : Nat) (l : Layout) : List (Ptr × Cell) :=
  (l.address, .table l.elements l.chains.length) :: (l.elements, .buckets l.heads) ::
    l.chains.flatMap (chainBlocks granted)

def chain (l : Layout) (index : Nat) : List Link := l.chains.getD index []

def setChain (l : Layout) (index : Nat) (chain : List Link) : Layout :=
  { l with chains := l.chains.set index chain }

/-- The blocks of the layout outside one chain and the array of heads. -/
def others (granted : Nat) (l : Layout) (index : Nat) : List (Ptr × Cell) :=
  (l.address, .table l.elements l.chains.length) ::
    ((l.chains.take index).flatMap (chainBlocks granted) ++
      (l.chains.drop (index + 1)).flatMap (chainBlocks granted))

@[simp] theorem size_table (l : Layout) : l.table.size = l.chains.length := List.length_map ..

@[simp] theorem length_heads (l : Layout) : l.heads.length = l.chains.length := List.length_map ..

theorem bucket_table (l : Layout) (index : Nat) :
    l.table.bucket index = (l.chain index).map Link.entry := by
  simp only [table, Htable.bucket, chain, List.getD_eq_getElem?_getD, List.getElem?_map]
  cases l.chains[index]? <;> rfl

theorem heads_getElem? (l : Layout) {index : Nat} (inside : index < l.chains.length) :
    l.heads[index]? = some (headOf (l.chain index)) := by
  simp [heads, chain, inside]

theorem table_setChain (l : Layout) (index : Nat) (chain : List Link) :
    (l.setChain index chain).table = l.table.setBucket index (chain.map Link.entry) := by
  simp only [table, setChain, Htable.setBucket, List.map_set]

theorem blocks_setChain (granted : Nat) (l : Layout) {index : Nat}
    (inside : index < l.chains.length) (chain : List Link) :
    ((l.setChain index chain).blocks granted).Perm
      ((l.elements, .buckets (l.heads.set index (headOf chain))) ::
        (chainBlocks granted chain ++ l.others granted index)) := by
  have cut : (l.chains.set index chain).flatMap (chainBlocks granted) =
      (l.chains.take index).flatMap (chainBlocks granted) ++ (chainBlocks granted chain ++
        (l.chains.drop (index + 1)).flatMap (chainBlocks granted)) := by
    rw [List.set_eq_take_append_cons_drop, if_pos inside, List.flatMap_append, List.flatMap_cons]
  simp only [blocks, setChain, heads, others, List.length_set, List.map_set, cut]
  grind

theorem setChain_self (l : Layout) {index : Nat} (inside : index < l.chains.length) :
    l.setChain index (l.chain index) = l := by
  have self : l.chains.set index l.chains[index] = l.chains := List.set_getElem_self inside
  simp [setChain, chain, inside, self]

theorem heads_set_self (l : Layout) {index : Nat} (inside : index < l.chains.length) :
    l.heads.set index (headOf (l.chain index)) = l.heads :=
  List.map_set.symm.trans (congrArg Layout.heads (l.setChain_self inside))

theorem blocks_focus (granted : Nat) (l : Layout) {index : Nat} (inside : index < l.chains.length) :
    (l.blocks granted).Perm ((l.elements, .buckets l.heads) ::
      (chainBlocks granted (l.chain index) ++ l.others granted index)) := by
  have focus := l.blocks_setChain granted inside (l.chain index)
  rwa [l.setChain_self inside, l.heads_set_self inside] at focus

end Layout

/-! The accesses. -/

section Access

variable {α : Type} {m : Ram} {blocks rest : List (Ptr × Cell)} {granted : Nat} {n : TableNode}
  {p : Ptr}

theorem wp_loadString {post : CString → Ram → Prop} {s : CString} (holds : m.heap.Holds blocks)
    (member : (p, .string s) ∈ blocks) (right : post s m) : wp (Mem.loadString p) post m :=
  wp_bind (wp_load holds member (wp_pure right))

/-- Every field of a node is inside what was granted for it. -/
theorem Field.reach_le (f : Field) (room : 24 ≤ granted) : f.reach ≤ granted := by
  cases f <;> simp only [Field.reach] <;> omega

theorem wp_loadField {post : Ptr → Ram → Prop} (f : Field) (room : f.reach ≤ granted)
    (holds : m.heap.Holds blocks) (member : (p, .node granted n) ∈ blocks)
    (right : post (n.get f) m) : wp (Mem.loadField p f) post m := by
  refine wp_bind (wp_load holds member ?_)
  simp only [room, ↓reduceIte]
  exact wp_pure right

theorem loadField_fault (f : Field) (beyond : granted < f.reach) (holds : m.heap.Holds blocks)
    (member : (p, .node granted n) ∈ blocks) : Mem.loadField p f m = .fault := by
  refine bind_eq_of_wp (wp_load holds member ?_)
  simp only [Nat.not_le.mpr beyond, ↓reduceIte]
  rfl

theorem wp_storeField {post : Unit → Ram → Prop} (f : Field) (target : Ptr)
    (room : f.reach ≤ granted)
    (holds : m.heap.Holds ((p, .node granted n) :: rest))
    (right : ∀ m', m'.supply = m.supply →
      m'.heap.Holds ((p, .node granted (n.set target f)) :: rest) → post () m') :
    wp (Mem.storeField p f target) post m := by
  refine wp_bind (wp_load holds List.mem_cons_self ?_)
  simp only [room, ↓reduceIte]
  exact wp_store _ holds right

theorem storeField_fault (f : Field) (target : Ptr) (beyond : granted < f.reach)
    (holds : m.heap.Holds ((p, .node granted n) :: rest)) :
    Mem.storeField p f target m = .fault := by
  refine bind_eq_of_wp (wp_load holds List.mem_cons_self ?_)
  simp only [Nat.not_le.mpr beyond, ↓reduceIte]
  rfl

theorem wp_loadHead {post : Ptr → Ram → Prop} {heads : List Ptr} {index : Nat} {head : Ptr}
    (holds : m.heap.Holds blocks) (member : (p, .buckets heads) ∈ blocks)
    (inside : heads[index]? = some head) (right : post head m) :
    wp (Mem.loadHead p index) post m := by
  refine wp_bind (wp_load holds member ?_)
  simp only [inside]
  exact wp_pure right

theorem wp_storeHead {post : Unit → Ram → Prop} {heads : List Ptr} {index : Nat} (head : Ptr)
    (holds : m.heap.Holds ((p, .buckets heads) :: rest)) (inside : index < heads.length)
    (right : ∀ m', m'.supply = m.supply →
      m'.heap.Holds ((p, .buckets (heads.set index head)) :: rest) → post () m') :
    wp (Mem.storeHead p index head) post m := by
  refine wp_bind (wp_load holds List.mem_cons_self ?_)
  simp only [inside, ↓reduceIte]
  exact wp_store _ holds right

theorem wp_loadTable {post : Ptr × Nat → Ram → Prop} {elements : Ptr} {size : Nat}
    (holds : m.heap.Holds blocks) (member : (p, .table elements size) ∈ blocks)
    (right : post (elements, size) m) : wp (Mem.loadTable p) post m :=
  wp_bind (wp_load holds member (wp_pure right))

theorem wp_kvPairFree_link {post : Unit → Ram → Prop} {l : Link} {next : Ptr} (room : 24 ≤ granted)
    (holds : m.heap.Holds (l.blocks granted next ++ rest))
    (right : ∀ m', m'.supply = m.supply →
      m'.heap.Holds ((l.address, .node granted ⟨0, 0, next⟩) :: rest) → post () m') :
    wp (Mem.kvPairFree (.inNode l.address)) post m := by
  refine wp_bind (wp_bind (wp_loadField .key (Field.reach_le _ room) holds List.mem_cons_self ?_))
  refine wp_bind (wp_loadField .value (Field.reach_le _ room) holds List.mem_cons_self (wp_pure ?_))
  refine wp_bind (wp_free (holds.perm (List.Perm.swap ..)) fun m₁ s₁ h₁ => ?_)
  refine wp_bind (wp_free (h₁.perm (List.Perm.swap ..)) fun m₂ s₂ h₂ => ?_)
  refine wp_bind (wp_storeField .key 0 (Field.reach_le _ room) h₂ fun m₃ s₃ h₃ => ?_)
  refine wp_storeField .value 0 (Field.reach_le _ room) h₃ fun m₄ s₄ h₄ => ?_
  exact right m₄ (by rw [s₄, s₃, s₂, s₁]) h₄

end Access

end PpsDht
