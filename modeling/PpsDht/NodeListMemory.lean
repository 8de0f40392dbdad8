import PpsDht.Ring
import PpsDht.TableLayout

/-! Lists of servers over the heap: the growing part of `node_list.c`, and
`ring_get_nodes_for_key` of `ring.c`. The list that it returns is a block of its own, with an
array that moves with every server that is added. -/
namespace PpsDht

open CLib Loop Heap Prog

namespace Mem

def loadNodeList (list : Ptr) : Mem (Ptr × Nat) := do
  match ← Prog.load list with
  | .nodeList nodes size => pure (nodes, size)
  | _ => Prog.fault

/-- `list->nodes[i]` -/
def loadNode (nodes : Ptr) (i : Nat) : Mem Node := do
  match ← Prog.load nodes with
  | .servers slots =>
    match slots[i]? with
    | some (some node) => pure node
    | _ => Prog.fault
  | _ => Prog.fault

def storeNode (nodes : Ptr) (i : Nat) (node : Node) : Mem Unit := do
  match ← Prog.load nodes with
  | .servers slots =>
    if i < slots.length then Prog.store nodes (.servers (slots.set i (some node)))
    else Prog.fault
  | _ => Prog.fault

def loadNodes (nodes : Ptr) : Nat → Nat → Mem NodeList
  | 0, _ => return []
  | left + 1, i => do
    let node ← loadNode nodes i
    let later ← loadNodes nodes left (i + 1)
    return node :: later

def nodeListNew : Mem Ptr := calloc (.nodeList 0 0)

/-- At NULL a new array is allocated. -/
def reallocNodes (nodes : Ptr) (count : Nat) : Mem Ptr := do
  if nodes = 0 then calloc (.servers (List.replicate count none))
  else
    match ← Prog.load nodes with
    | .servers slots =>
      let new ← calloc (.servers (slots.take count ++ List.replicate (count - slots.length) none))
      if new = 0 then return 0
      Prog.free nodes
      return new
    | _ => Prog.fault

def nodeListAdd (list : Ptr) (node : Node) : Mem ErrorCode := do
  if list = 0 then return .badParameter
  let (old, size) ← loadNodeList list
  Prog.store list (.nodeList old (size + 1))
  if sizeMax / sizeofNode < size + 1 then
    Prog.store list (.nodeList old size)
    return .nomem
  let new ← reallocNodes old (size + 1)
  Prog.store list (.nodeList new (size + 1))
  if new = 0 then
    Prog.store list (.nodeList old size)
    return .nomem
  storeNode new size node
  return .none

def nodeListFree (list : Ptr) : Mem Unit := do
  if list = 0 then return ()
  let (nodes, _) ← loadNodeList list
  Prog.store list (.nodeList nodes 0)
  Prog.free nodes
  Prog.store list (.nodeList 0 0)
  Prog.free list

def searchLoop (ring : Ptr) (key : Node) : Nat → Nat → Mem Nat
  | 0, _ => Prog.outOfFuel
  | fuel + 1, i => do
    let (nodes, _) ← loadNodeList ring
    let node ← loadNode nodes i
    if 0 < nodeCmpSha key node then searchLoop ring key fuel (i + 1) else return i

def collectLoop (ring : Ptr) (wanted : Nat) (result : Ptr) : Nat → Nat → Mem Ptr
  | 0, _ => Prog.outOfFuel
  | fuel + 1, i => do
    let (kept, size) ← loadNodeList result
    if size < wanted then
      let (nodes, count) ← loadNodeList ring
      let node ← loadNode nodes i
      let list ← loadNodes kept size 0
      if serverDifferent list node then
        match ← nodeListAdd result node with
        | .none => collectLoop ring wanted result fuel ((i + 1) % count)
        | _ =>
          nodeListFree result
          return 0
      else collectLoop ring wanted result fuel ((i + 1) % count)
    else return result

/-- The size of a result that could not be allocated is stored through NULL. -/
def ringGetNodesForKey (sha1 : List UInt8 → Digest) (ring : Ptr) (wanted : Nat) (key : CString)
    (fuel : Nat) : Mem Ptr := do
  let result ← nodeListNew
  Prog.store result (.nodeList 0 0)
  let i ← searchLoop ring (keyNode (sha1 key.bytes)) fuel 0
  collectLoop ring wanted result fuel i

end Mem

/-- A list in memory; an empty one has no array. -/
structure ServerList where
  list : Ptr
  array : Ptr
  nodes : NodeList
  null : nodes = [] → array = 0

namespace ServerList

def arrayBlocks (s : ServerList) : List (Ptr × Cell) :=
  if s.nodes = [] then [] else [(s.array, .servers (s.nodes.map some))]

def blocks (s : ServerList) : List (Ptr × Cell) :=
  (s.list, .nodeList s.array s.nodes.length) :: s.arrayBlocks

theorem array_mem (s : ServerList) (some : s.nodes ≠ []) :
    (s.array, .servers (s.nodes.map Option.some)) ∈ s.blocks := by
  rw [blocks, arrayBlocks, if_neg some]
  exact List.mem_cons_of_mem _ List.mem_cons_self

end ServerList

variable {m : Ram} {blocks rest : List (Ptr × Cell)} {list array : Ptr}

theorem wp_loadNodeList {post : Ptr × Nat → Ram → Prop} {size : Nat} (holds : m.heap.Holds blocks)
    (member : (list, .nodeList array size) ∈ blocks) (right : post (array, size) m) :
    wp (Mem.loadNodeList list) post m :=
  wp_bind (wp_load holds member (wp_pure right))

theorem wp_loadNode {post : Node → Ram → Prop} {slots : List (Option Node)} {i : Nat} {node : Node}
    (holds : m.heap.Holds blocks) (member : (array, .servers slots) ∈ blocks)
    (here : slots[i]? = some (some node)) (right : post node m) :
    wp (Mem.loadNode array i) post m := by
  refine wp_bind (wp_load holds member ?_)
  simp only [here]
  exact wp_pure right

theorem wp_loadNodes {post : NodeList → Ram → Prop} (front nodes : NodeList)
    (holds : m.heap.Holds blocks)
    (member : nodes ≠ [] → (array, .servers ((front ++ nodes).map some)) ∈ blocks)
    (right : post nodes m) : wp (Mem.loadNodes array nodes.length front.length) post m := by
  induction nodes generalizing front post with
  | nil => exact wp_pure right
  | cons node nodes ih =>
    have array := member (List.cons_ne_nil _ _)
    have here : ((front ++ node :: nodes).map some)[front.length]? = some (some node) := by simp
    have length : front.length + 1 = (front ++ [node]).length := by
      rw [List.length_append, List.length_singleton]
    refine wp_bind (wp_loadNode holds array here ?_)
    rw [length]
    refine wp_bind (ih (front ++ [node]) (fun _ => ?_) (wp_pure right))
    rwa [List.append_assoc, List.singleton_append]

theorem wp_storeNode {post : Unit → Ram → Prop} {slots : List (Option Node)} {i : Nat} (node : Node)
    (holds : m.heap.Holds ((array, .servers slots) :: rest)) (inside : i < slots.length)
    (right : ∀ m', m'.supply = m.supply →
      m'.heap.Holds ((array, .servers (slots.set i (some node))) :: rest) → post () m') :
    wp (Mem.storeNode array i node) post m := by
  refine wp_bind (wp_load holds List.mem_cons_self ?_)
  dsimp only
  rw [if_pos inside]
  exact wp_store _ holds right

theorem wp_reallocNodes {post : Ptr → Ram → Prop} (s : ServerList)
    (holds : m.heap.Holds (s.arrayBlocks ++ rest))
    (refused : ∀ m', malloc m.supply = (false, m'.supply) →
      m'.heap.Holds (s.arrayBlocks ++ rest) → post 0 m')
    (moved : ∀ new m', new ≠ 0 → malloc m.supply = (true, m'.supply) →
      m'.heap.Holds ((new, .servers (s.nodes.map some ++ [none])) :: rest) → post new m') :
    wp (Mem.reallocNodes s.array (s.nodes.length + 1)) post m := by
  by_cases empty : s.nodes = []
  · rw [Mem.reallocNodes, if_pos (s.null empty)]
    refine wp_calloc malloc _ holds refused fun new m' live granted h' => moved new m' live granted ?_
    simpa [ServerList.arrayBlocks, empty] using h'
  · rw [ServerList.arrayBlocks, if_neg empty] at holds refused
    rw [Mem.reallocNodes, if_neg (holds.ne_null List.mem_cons_self)]
    refine wp_bind (wp_load holds List.mem_cons_self ?_)
    have grown : (s.nodes.map some).take (s.nodes.length + 1) ++
        List.replicate (s.nodes.length + 1 - (s.nodes.map some).length) none =
          s.nodes.map some ++ [none] := by
      rw [List.length_map, List.take_of_length_le (by rw [List.length_map]; omega),
        Nat.add_sub_cancel_left]
      rfl
    simp only [grown]
    refine wp_bind (wp_calloc malloc _ holds (fun m₁ s₁ h₁ => ?_) fun new m₁ live s₁ h₁ => ?_)
    · rw [if_pos rfl]
      exact wp_pure (refused m₁ s₁ h₁)
    · rw [if_neg live]
      refine wp_bind (wp_free (h₁.perm (List.Perm.swap ..)) fun m₂ s₂ h₂ => wp_pure ?_)
      exact moved new m₂ live (s₂ ▸ s₁) h₂

theorem wp_nodeListAdd (s : ServerList) (node : Node) (holds : m.heap.Holds (s.blocks ++ rest)) :
    wp (Mem.nodeListAdd s.list node) (fun error m' => ∃ s' : ServerList, s'.list = s.list ∧
      nodeListAdd s.nodes node m.supply = (error, s'.nodes, m'.supply) ∧
      m'.heap.Holds (s'.blocks ++ rest)) m := by
  have live : s.list ≠ 0 := holds.ne_null List.mem_cons_self
  rw [Mem.nodeListAdd, if_neg live]
  refine wp_bind (wp_loadNodeList holds List.mem_cons_self ?_)
  refine wp_bind (wp_store _ holds fun m₁ s₁ h₁ => ?_)
  by_cases full : sizeMax / sizeofNode < s.nodes.length + 1
  · rw [if_pos full]
    refine wp_bind (wp_store _ h₁ fun m₂ s₂ h₂ => wp_pure ⟨s, rfl, ?_, h₂⟩)
    rw [nodeListAdd, if_pos full, s₂, s₁]
  rw [if_neg full]
  have own : m₁.heap.Holds (s.arrayBlocks ++
      ((s.list, .nodeList s.array (s.nodes.length + 1)) :: rest)) :=
    h₁.perm List.perm_middle.symm
  refine wp_bind (wp_reallocNodes s own (fun m₂ s₂ h₂ => ?_) fun new m₂ live' s₂ h₂ => ?_)
  · refine wp_bind (wp_store _ (h₂.perm List.perm_middle) fun m₃ s₃ h₃ => ?_)
    rw [if_pos rfl]
    refine wp_bind (wp_store _ h₃ fun m₄ s₄ h₄ => wp_pure ⟨s, rfl, ?_, h₄⟩)
    rw [nodeListAdd, if_neg full, ← s₁, s₂, s₄, s₃]
  · refine wp_bind (wp_store _ (h₂.perm (List.Perm.swap ..)) fun m₃ s₃ h₃ => ?_)
    rw [if_neg live']
    refine wp_bind (wp_storeNode node (h₃.perm (List.Perm.swap ..)) (by simp) fun m₄ s₄ h₄ =>
      wp_pure ⟨⟨s.list, new, s.nodes ++ [node], by simp⟩, rfl, ?_, ?_⟩)
    · rw [nodeListAdd, if_neg full, ← s₁, s₂, s₄, s₃]
    · have written : (s.nodes.map some ++ [none]).set s.nodes.length (some node) =
          (s.nodes ++ [node]).map some := by
        have length : (s.nodes.map some).length = s.nodes.length := List.length_map ..
        rw [← length, List.set_append_right _ _ (Nat.le_refl _)]
        simp
      rw [written] at h₄
      refine h₄.perm ?_
      simp only [ServerList.blocks, ServerList.arrayBlocks, List.length_append,
        List.length_singleton, List.append_eq_nil_iff, List.cons_ne_nil, and_false, if_false]
      exact List.Perm.swap ..

theorem wp_nodeListFree {post : Unit → Ram → Prop} (s : ServerList)
    (holds : m.heap.Holds (s.blocks ++ rest))
    (right : ∀ m', m'.supply = m.supply → m'.heap.Holds rest → post () m') :
    wp (Mem.nodeListFree s.list) post m := by
  rw [Mem.nodeListFree, if_neg (holds.ne_null List.mem_cons_self)]
  refine wp_bind (wp_loadNodeList holds List.mem_cons_self ?_)
  refine wp_bind (wp_store _ holds fun m₁ s₁ h₁ => ?_)
  have array : wp (Prog.free s.array) (fun _ m₂ => m₂.supply = m.supply ∧
      m₂.heap.Holds ((s.list, .nodeList s.array 0) :: rest)) m₁ := by
    by_cases empty : s.nodes = []
    · rw [s.null empty]
      refine wp_free_null ⟨s₁, ?_⟩
      simpa [ServerList.arrayBlocks, empty, s.null empty] using h₁
    · rw [ServerList.arrayBlocks, if_neg empty] at h₁
      exact wp_free (h₁.perm (List.Perm.swap ..)) fun m₂ s₂ h₂ => ⟨s₂.trans s₁, h₂⟩
  refine wp_bind (wp_mono array ?_)
  rintro _ m₂ ⟨s₂, h₂⟩
  refine wp_bind (wp_store _ h₂ fun m₃ s₃ h₃ => ?_)
  exact wp_free h₃ fun m₄ s₄ h₄ => right m₄ (by rw [s₄, s₃, s₂]) h₄

/-! The two loops of `ring_get_nodes_for_key`. -/

def ServerList.In (s : ServerList) (blocks : List (Ptr × Cell)) : Prop :=
  ∀ block ∈ s.blocks, block ∈ blocks

theorem ServerList.In.header {s : ServerList} (known : s.In blocks) :
    (s.list, .nodeList s.array s.nodes.length) ∈ blocks := known _ List.mem_cons_self

theorem ServerList.In.append {s : ServerList} (known : s.In rest) : s.In (blocks ++ rest) :=
  fun block member => List.mem_append_right _ (known block member)

theorem endsAs_loadNode {s : ServerList} (holds : m.heap.Holds blocks) (known : s.In blocks)
    (i : Nat) :
    match s.nodes[i]? with
    | some node => ∀ {post : Node → Ram → Prop}, post node m → wp (Mem.loadNode s.array i) post m
    | none => Mem.loadNode s.array i m = .fault := by
  by_cases empty : s.nodes = []
  · simp only [empty, List.getElem?_nil, s.null empty]
    exact fault_bind load_null
  have member := known _ (s.array_mem empty)
  cases here : s.nodes[i]? with
  | some node =>
    intro post right
    exact wp_loadNode holds member (by rw [List.getElem?_map, here, Option.map_some]) right
  | none =>
    refine bind_eq_of_wp (wp_load holds member ?_)
    simp only [List.getElem?_map, here, Option.map_none]
    rfl

theorem endsAs_searchLoop {ring : ServerList} (holds : m.heap.Holds blocks) (known : ring.In blocks)
    (key : Node) (fuel i : Nat) :
    EndsAs (iterate (searchStep ring.nodes key) fuel i) (Mem.searchLoop ring.list key fuel i)
      (fun found index m' => index = found ∧ m' = m) m := by
  induction fuel generalizing i with
  | zero => rfl
  | succ fuel ih =>
    rw [Mem.searchLoop]
    refine endsAs_of_wp (wp_loadNodeList holds known.header ?_)
    have read := endsAs_loadNode holds known i
    cases here : ring.nodes[i]? with
    | none =>
      rw [here] at read
      rw [iterate_fault (by simp only [searchStep, here])]
      exact fault_bind read
    | some node =>
      rw [here] at read
      refine endsAs_of_wp (read ?_)
      by_cases behind : 0 < nodeCmpSha key node
      · rw [iterate_next (by simp only [searchStep, here, behind, ↓reduceIte]; rfl), if_pos behind]
        exact ih (i + 1)
      · rw [iterate_done (by simp only [searchStep, here, behind, ↓reduceIte]; rfl), if_neg behind]
        exact wp_pure ⟨rfl, rfl⟩

def Collected (rest : List (Ptr × Cell)) (result : Option NodeList × Alloc) (p : Ptr) (m' : Ram) :
    Prop :=
  m'.supply = result.2 ∧
    match result.1 with
    | some nodes => ∃ s : ServerList, s.list = p ∧ s.nodes = nodes ∧ m'.heap.Holds (s.blocks ++ rest)
    | none => p = 0 ∧ m'.heap.Holds rest

theorem endsAs_collectLoop {ring : ServerList} (known : ring.In rest) (wanted : Nat)
    (kept : ServerList) (fuel i : Nat) (holds : m.heap.Holds (kept.blocks ++ rest)) :
    EndsAs (iterate (collectStep ring.nodes wanted) fuel ⟨i, kept.nodes, m.supply⟩)
      (Mem.collectLoop ring.list wanted kept.list fuel i) (Collected rest) m := by
  induction fuel generalizing i kept m with
  | zero => rfl
  | succ fuel ih =>
    rw [Mem.collectLoop]
    refine endsAs_of_wp (wp_loadNodeList holds List.mem_cons_self ?_)
    dsimp only
    by_cases more : kept.nodes.length < wanted
    swap
    · rw [iterate_done (by simp only [collectStep, more, ↓reduceIte]; rfl), if_neg more]
      exact wp_pure ⟨rfl, kept, rfl, rfl, holds⟩
    rw [if_pos more]
    refine endsAs_of_wp (wp_loadNodeList holds known.append.header ?_)
    have read := endsAs_loadNode holds known.append i
    cases here : ring.nodes[i]? with
    | none =>
      rw [here] at read
      rw [iterate_fault (by simp only [collectStep, more, ↓reduceIte, here])]
      exact fault_bind read
    | some node =>
      rw [here] at read
      refine endsAs_of_wp (read ?_)
      have all : wp (Mem.loadNodes kept.array kept.nodes.length 0)
          (fun list m' => list = kept.nodes ∧ m' = m) m :=
        wp_loadNodes [] kept.nodes holds
          (fun some => List.mem_append_left _ (kept.array_mem some)) ⟨rfl, rfl⟩
      refine endsAs_of_wp (wp_mono all ?_)
      rintro _ m ⟨rfl, rfl⟩
      by_cases new : serverDifferent kept.nodes node = true
      swap
      · rw [iterate_next (by simp only [collectStep, more, ↓reduceIte, here, new]; rfl), if_neg new]
        exact ih kept _ holds
      rw [if_pos new]
      refine endsAs_of_wp (wp_mono (wp_nodeListAdd kept node holds) ?_)
      rintro error m₁ ⟨grown, same, added, h₁⟩
      have step : collectStep ring.nodes wanted ⟨i, kept.nodes, m.supply⟩ =
          if error = .none then .next ⟨(i + 1) % ring.nodes.length, grown.nodes, m₁.supply⟩
          else .done (none, m₁.supply) := by
        simp only [collectStep, more, ↓reduceIte, here, new, added]
        cases error <;> rfl
      have failed : wp (do Mem.nodeListFree kept.list; return 0) (Collected rest (none, m₁.supply))
          m₁ := by
        rw [← same]
        exact wp_bind (wp_nodeListFree grown h₁ fun m₂ s₂ h₂ => wp_pure ⟨s₂, rfl, h₂⟩)
      cases error with
      | none =>
        rw [iterate_next step, ← same]
        exact ih grown _ h₁
      | _ =>
        rw [iterate_done step]
        exact failed

/-- Over the heap the call ends as it does on lists, with the list in blocks of its own. -/
theorem endsAs_ringGetNodesForKey (sha1 : List UInt8 → Digest) {ring : ServerList}
    (holds : m.heap.Holds rest) (known : ring.In rest) (wanted : Nat) (key : CString) (fuel : Nat) :
    EndsAs (ringGetNodesForKey sha1 ring.nodes wanted key fuel m.supply)
      (Mem.ringGetNodesForKey sha1 ring.list wanted key fuel) (Collected rest) m := by
  rw [Mem.ringGetNodesForKey]
  refine endsAs_of_wp (wp_calloc malloc _ holds (fun m₁ s₁ h₁ => ?_) fun new m₁ live s₁ h₁ => ?_)
  · simp only [ringGetNodesForKey, s₁]
    exact fault_bind (store_null _)
  · simp only [ringGetNodesForKey, s₁]
    refine endsAs_of_wp (wp_store _ h₁ fun m₂ s₂ h₂ => ?_)
    rw [← s₂]
    refine endsAs_bind (endsAs_searchLoop h₂ (fun b member =>
      List.mem_cons_of_mem _ (known b member)) _ fuel 0) ?_
    rintro _ i m₃ _ ⟨rfl, rfl⟩
    exact endsAs_collectLoop known wanted ⟨new, 0, [], fun _ => rfl⟩ fuel i h₂

end PpsDht
