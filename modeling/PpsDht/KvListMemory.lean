import PpsDht.KvListRuns
import PpsDht.TableRefinement

/-! The content of a table as a list in memory: `create_kv_list`, `get_kv_pair`,
`get_Htable_content` and `kv_list_free` of `hashtable.c`. A listing on memory ends like the
one on lists; freeing it frees the copies and the array, each once, but not the list
itself, and a listing that fails frees the list itself and nothing else. -/
namespace PpsDht

open CLib Loop Heap Prog

namespace Mem

def loadKvList (list : Ptr) : Mem (Ptr × Nat × Nat) := do
  match ← Prog.load list with
  | .kvList elems size allocated => pure (elems, size, allocated)
  | _ => Prog.fault

def createKvList : Mem Ptr := do
  let list ← calloc (.kvList 0 0 0)
  if list = 0 then return 0
  let elems ← calloc (.kvPairs (List.replicate kvListSize (some (0, 0))))
  Prog.store list (.kvList elems 0 0)
  if elems = 0 then return list
  Prog.store list (.kvList elems 0 kvListSize)
  return list

/-- Either the old array stays as it was, or its pairs move to a new one. -/
def realloc (elems : Ptr) (count : Nat) : Mem Ptr := do
  match ← Prog.load elems with
  | .kvPairs slots =>
    let new ← calloc (.kvPairs (slots.take count ++ List.replicate (count - slots.length) none))
    if new = 0 then return 0
    Prog.free elems
    return new
  | _ => Prog.fault

/-- `while (list->size >= list->allocated)`; false when it returns `ERR_NOMEM`. -/
def reserveLoop (list : Ptr) : Nat → Mem Bool
  | 0 => Prog.outOfFuel
  | fuel + 1 => do
    let (elems, size, allocated) ← loadKvList list
    if allocated ≤ size then
      let doubled := allocated * 2 % 2 ^ 64
      Prog.store list (.kvList elems size doubled)
      if sizeMax / sizeofKvPair < doubled then
        Prog.store list (.kvList elems (size - 1) (doubled / 2))
        return false
      let new ← realloc elems doubled
      if new = 0 then
        Prog.store list (.kvList elems (size - 1) (doubled / 2))
        return false
      Prog.store list (.kvList new size doubled)
      reserveLoop list fuel
    else return true

def addPair (fuel : Nat) (list current : Ptr) : Mem ErrorCode := do
  let (elems, size, allocated) ← loadKvList list
  Prog.store list (.kvList elems (size + 1) allocated)
  if ← reserveLoop list fuel then
    let key ← loadField current .key
    let key ← loadString key
    let keyCopy ← strdup key
    if keyCopy = 0 then return .nomem
    let value ← loadField current .value
    let value ← loadString value
    let valueCopy ← strdup value
    if valueCopy = 0 then
      Prog.free keyCopy
      return .nomem
    let (elems, size, _) ← loadKvList list
    storePair (keyCopy, valueCopy) (.inArray elems (size - 1))
    return .none
  else return .nomem

def chainLoop (fuel : Nat) (list : Ptr) : Nat → Ptr → Mem ErrorCode
  | 0, _ => Prog.outOfFuel
  | turns + 1, current => do
    if current = 0 then return .none
    match ← addPair fuel list current with
    | .none =>
      let next ← loadField current .next
      chainLoop fuel list turns next
    | error => return error

def bucketLoop (fuel : Nat) (list table : Ptr) : Nat → Nat → Mem ErrorCode
  | 0, _ => return .none
  | left + 1, i => do
    let (elements, _) ← loadTable table
    let head ← loadHead elements i
    match ← chainLoop fuel list fuel head with
    | .none => bucketLoop fuel list table left (i + 1)
    | error => return error

def getKvPair (fuel : Nat) (list table : Ptr) : Mem ErrorCode := do
  if list = 0 then return .badParameter
  let (elements, size) ← loadTable table
  if elements = 0 then return .badParameter
  let (_, _, allocated) ← loadKvList list
  if allocated = 0 then return .nomem
  bucketLoop fuel list table size 0

def getHtableContent (fuel : Nat) (table : Ptr) : Mem Ptr := do
  if table = 0 then return 0
  let list ← createKvList
  if list = 0 then return 0
  match ← getKvPair fuel list table with
  | .none => return list
  | _ =>
    Prog.free list
    return 0

def freeLoop (list : Ptr) : Nat → Nat → Mem Unit
  | 0, _ => return ()
  | left + 1, i => do
    let (elems, _, _) ← loadKvList list
    kvPairFree (.inArray elems i)
    freeLoop list left (i + 1)

def kvListFree (list : Ptr) : Mem Unit := do
  if list = 0 then return ()
  let (_, size, _) ← loadKvList list
  freeLoop list size 0
  let (elems, _, _) ← loadKvList list
  Prog.free elems
  Prog.store list (.kvList 0 0 0)

end Mem

/-! Where a list and its copies are. -/

structure Copied where
  keyAddress : Ptr
  valueAddress : Ptr
  entry : KvPair

def Copied.blocks (c : Copied) : List (Ptr × Cell) :=
  [(c.keyAddress, .string c.entry.key), (c.valueAddress, .string c.entry.value)]

def Copied.slot (c : Copied) : Option (Ptr × Ptr) := some (c.keyAddress, c.valueAddress)

/-- `size` is the source's counter; the array has room for the copies and the spare pairs. -/
structure ListLayout where
  address : Ptr
  elems : Ptr
  size : Nat
  copies : List Copied
  spare : List (Option (Ptr × Ptr))

namespace ListLayout

def allocated (l : ListLayout) : Nat := l.copies.length + l.spare.length

def list (l : ListLayout) : KvList := ⟨l.copies.map Copied.entry, l.size, l.allocated⟩

def slots (l : ListLayout) : List (Option (Ptr × Ptr)) := l.copies.map Copied.slot ++ l.spare

/-- The array and the copies that it points to. -/
def held (l : ListLayout) : List (Ptr × Cell) :=
  (l.elems, .kvPairs l.slots) :: l.copies.flatMap Copied.blocks

def blocks (l : ListLayout) : List (Ptr × Cell) :=
  (l.address, .kvList l.elems l.size l.allocated) :: l.held

@[simp] theorem list_size (l : ListLayout) : l.list.size = l.size := rfl

@[simp] theorem list_allocated (l : ListLayout) : l.list.allocated = l.allocated := rfl

@[simp] theorem list_elems (l : ListLayout) : l.list.elems = l.copies.map Copied.entry := rfl

def moved (l : ListLayout) (new : Ptr) : ListLayout :=
  { l with elems := new, spare := l.spare ++ List.replicate l.allocated none }

theorem allocated_moved (l : ListLayout) (new : Ptr) :
    (l.moved new).allocated = l.allocated * 2 := by
  simp only [moved, allocated, List.length_append, List.length_replicate]
  omega

theorem list_moved (l : ListLayout) (new : Ptr) :
    (l.moved new).list = ⟨l.list.elems, l.list.size, l.list.allocated * 2⟩ := by
  rw [list_allocated, ← l.allocated_moved new]
  rfl

theorem blocks_moved (l : ListLayout) (new : Ptr) :
    (l.moved new).blocks = (l.address, .kvList new l.size (l.allocated * 2)) ::
      (new, .kvPairs (l.slots ++ List.replicate l.allocated none)) ::
        l.copies.flatMap Copied.blocks := by
  rw [blocks, l.allocated_moved new]
  simp [moved, held, slots]

@[simp] theorem length_slots (l : ListLayout) : l.slots.length = l.allocated := by
  simp [slots, allocated]

end ListLayout

variable {m : Ram} {blocks rest frame : List (Ptr × Cell)} {granted : Nat}

theorem wp_loadKvList {p elems : Ptr} {size allocated : Nat} {post : Ptr × Nat × Nat → Ram → Prop}
    (holds : m.heap.Holds blocks) (member : (p, .kvList elems size allocated) ∈ blocks)
    (right : post (elems, size, allocated) m) : wp (Mem.loadKvList p) post m :=
  wp_bind (wp_load holds member (wp_pure right))

theorem wp_realloc {elems : Ptr} {slots : List (Option (Ptr × Ptr))} {count : Nat}
    {post : Ptr → Ram → Prop} (more : slots.length ≤ count)
    (holds : m.heap.Holds ((elems, .kvPairs slots) :: rest))
    (refused : ∀ m', malloc m.supply = (false, m'.supply) →
      m'.heap.Holds ((elems, .kvPairs slots) :: rest) → post 0 m')
    (grown : ∀ new m', new ≠ 0 → malloc m.supply = (true, m'.supply) →
      m'.heap.Holds ((new, .kvPairs (slots ++ List.replicate (count - slots.length) none)) :: rest) →
      post new m') :
    wp (Mem.realloc elems count) post m := by
  refine wp_bind (wp_load holds List.mem_cons_self ?_)
  refine wp_bind (wp_calloc malloc _ holds (fun m₁ s₁ h₁ => ?_) fun new m₁ live s₁ h₁ => ?_)
  · rw [if_pos rfl]
    exact wp_pure (refused m₁ s₁ h₁)
  · rw [if_neg live]
    rw [List.take_of_length_le more] at h₁
    refine wp_bind (wp_free (h₁.perm (List.Perm.swap ..)) fun m₂ s₂ h₂ => wp_pure ?_)
    exact grown new m₂ live (s₁.trans (by rw [s₂])) h₂

theorem wp_reserveLoop {l : ListLayout} {fuel : Nat} {ok : Bool} {list' : KvList} {a : Alloc}
    {post : Bool → Ram → Prop} (small : l.allocated ≤ sizeMax / sizeofKvPair)
    (holds : m.heap.Holds (l.blocks ++ rest))
    (ended : iterate reserveStep fuel (l.list, m.supply) = .done (ok, list', a))
    (right : ∀ (l' : ListLayout) m', l'.list = list' → l'.address = l.address →
      l'.copies = l.copies → m'.supply = a → m'.heap.Holds (l'.blocks ++ rest) → post ok m') :
    wp (Mem.reserveLoop l.address fuel) post m := by
  induction fuel generalizing l m with
  | zero => simp [iterate] at ended
  | succ fuel ih =>
    refine wp_bind (wp_loadKvList holds List.mem_cons_self ?_)
    dsimp only
    by_cases full : l.allocated ≤ l.size
    · have whole := reserveStep_full l.list full small m.supply
      have double : l.allocated * 2 % 2 ^ 64 = l.allocated * 2 := by
        have limit : sizeMax / sizeofKvPair = 2 ^ 60 - 1 := by decide
        apply Nat.mod_eq_of_lt
        omega
      have half : l.allocated * 2 / 2 = l.allocated := Nat.mul_div_cancel _ (by omega)
      rw [if_pos full, double, half]
      refine wp_bind (wp_store _ holds fun m₁ s₁ h₁ => ?_)
      by_cases beyond : sizeMax / sizeofKvPair < l.allocated * 2
      · have step := whole.trans (if_pos beyond)
        rw [if_pos beyond]
        rw [iterate_done step] at ended
        cases ended
        refine wp_bind (wp_store _ h₁ fun m₂ s₂ h₂ => wp_pure ?_)
        exact right { l with size := l.size - 1 } m₂ rfl rfl rfl (s₂.trans s₁) h₂
      · have step := whole.trans (if_neg beyond)
        rw [if_neg beyond]
        have more : l.slots.length ≤ l.allocated * 2 := by
          rw [l.length_slots]
          omega
        have array : m₁.heap.Holds ((l.elems, .kvPairs l.slots) ::
            (l.address, .kvList l.elems l.size (l.allocated * 2)) ::
            (l.copies.flatMap Copied.blocks ++ rest)) := h₁.perm (List.Perm.swap ..)
        refine wp_bind (wp_realloc more array (fun m₂ s₂ h₂ => ?_) fun new m₂ live s₂ h₂ => ?_)
        · rw [s₁] at s₂
          rw [if_pos rfl]
          simp only [s₂] at step
          rw [iterate_done step] at ended
          cases ended
          refine wp_bind (wp_store _ (h₂.perm (List.Perm.swap ..)) fun m₃ s₃ h₃ => wp_pure ?_)
          exact right { l with size := l.size - 1 } m₃ rfl rfl rfl s₃ h₃
        · rw [s₁] at s₂
          rw [if_neg live]
          simp only [s₂] at step
          rw [iterate_next step] at ended
          refine wp_bind (wp_store _ (h₂.perm (List.Perm.swap ..)) fun m₃ s₃ h₃ => ?_)
          have length : l.allocated * 2 - l.slots.length = l.allocated := by
            rw [l.length_slots]
            omega
          rw [length] at h₃
          have kept : m₃.heap.Holds ((l.moved new).blocks ++ rest) := by
            rw [l.blocks_moved new]
            exact h₃
          have within : (l.moved new).allocated ≤ sizeMax / sizeofKvPair := by
            rw [l.allocated_moved new]
            exact Nat.le_of_not_lt beyond
          rw [← l.list_moved new, ← s₃] at ended
          have later : wp (Mem.reserveLoop (l.moved new).address fuel) post m₃ :=
            ih within kept ended right
          exact later
    · have step := reserveStep_room l.list (Nat.lt_of_not_le full) m.supply
      rw [if_neg full]
      rw [iterate_done step] at ended
      cases ended
      exact wp_pure (right l m rfl rfl rfl rfl holds)

def ListLayout.push (l : ListLayout) (c : Copied) : ListLayout :=
  { l with copies := l.copies ++ [c], spare := l.spare.tail }

theorem ListLayout.allocated_push {l : ListLayout} (room : l.copies.length < l.allocated)
    (c : Copied) : (l.push c).allocated = l.allocated := by
  simp only [allocated, push, List.length_append, List.length_singleton, List.length_tail] at room ⊢
  omega

theorem ListLayout.slots_push {l : ListLayout} (room : l.copies.length < l.allocated) (c : Copied) :
    (l.push c).slots = l.slots.set l.copies.length c.slot := by
  cases spare : l.spare with
  | nil => simp [allocated, spare] at room
  | cons slot spare' =>
    have length : (l.copies.map Copied.slot).length = l.copies.length := List.length_map _
    rw [slots, slots, spare, ← length, List.set_append_right _ _ (Nat.le_refl _), Nat.sub_self]
    simp [push, spare]

/-- The counter and the room in which `get_kv_pair` writes a pair. -/
theorem wp_storeCopy {l : ListLayout} {c : Copied} {post : Unit → Ram → Prop}
    (room : l.copies.length < l.allocated) (counted : l.size = l.copies.length + 1)
    (holds : m.heap.Holds (c.blocks ++ (l.blocks ++ rest)))
    (right : ∀ m', m'.supply = m.supply → m'.heap.Holds ((l.push c).blocks ++ rest) → post () m') :
    wp (Mem.storePair (c.keyAddress, c.valueAddress) (.inArray l.elems (l.size - 1))) post m := by
  have array : m.heap.Holds ((l.elems, .kvPairs l.slots) ::
      (l.address, .kvList l.elems l.size l.allocated) ::
      (l.copies.flatMap Copied.blocks ++ (c.blocks ++ rest))) := by
    refine holds.perm ?_
    rw [ListLayout.blocks, ListLayout.held]
    grind
  refine wp_bind (wp_load array List.mem_cons_self ?_)
  have inside : l.size - 1 < l.slots.length := by
    rw [l.length_slots]
    omega
  dsimp only
  rw [if_pos inside]
  refine wp_store _ array fun m' s' h' => right m' s' (h'.perm ?_)
  rw [counted, Nat.add_sub_cancel, ← Copied.slot, ← ListLayout.slots_push room c,
    ListLayout.blocks, ListLayout.allocated_push room c, ListLayout.held]
  simp only [ListLayout.push, List.flatMap_append, List.flatMap_singleton, counted]
  grind

/-- When the growing loop goes through, there is room for the pair that was counted. -/
theorem reserve_ended {list : KvList} (valid : list.Valid) (fuel : Nat) (a : Alloc) :
    ∃ ok list' a', iterate reserveStep (fuel + 2) ({ list with size := list.size + 1 }, a) =
        .done (ok, list', a') ∧
      (ok = true → list'.size = list'.elems.length + 1 ∧ list'.elems.length < list'.allocated) := by
  have room := valid.lt_grown
  have counted := valid.counted
  rw [reserve_eq valid]
  rcases firstRefused (reserveDemands list.size list.allocated) a with ⟨_ | demand, rest⟩
  · exact ⟨true, _, rest, rfl, fun _ => ⟨by rw [counted], by dsimp only; omega⟩⟩
  · exact ⟨false, list, rest, rfl, by simp⟩

theorem wp_addPair {l : ListLayout} {current : Link} {next : Ptr} {fuel : Nat}
    {post : ErrorCode → Ram → Prop} (room : 24 ≤ granted) (valid : l.list.Valid)
    (holds : m.heap.Holds (l.blocks ++ (current.blocks granted next ++ rest)))
    (right : ∀ error (l' : ListLayout) m',
      addPair (fuel + 2) l.list current.entry m.supply = .done (error, l'.list, m'.supply) →
      l'.address = l.address →
      m'.heap.Holds (l'.blocks ++ (current.blocks granted next ++ rest)) → post error m') :
    wp (Mem.addPair (fuel + 2) l.address current.address) post m := by
  obtain ⟨ok, list', a', ended, fits⟩ := reserve_ended valid fuel m.supply
  refine wp_bind (wp_loadKvList holds List.mem_cons_self ?_)
  refine wp_bind (wp_store _ holds fun m₁ s₁ h₁ => ?_)
  let longer : ListLayout := { l with size := l.size + 1 }
  have counting : m₁.heap.Holds (longer.blocks ++ (current.blocks granted next ++ rest)) := h₁
  rw [← s₁] at ended
  refine wp_bind (wp_reserveLoop (l := longer) valid.addressable counting ended
    fun l₂ m₂ same place copies s₂ h₂ => ?_)
  rw [s₁] at ended
  cases ok with
  | false =>
    rw [if_neg (by simp)]
    refine wp_pure (right .nomem l₂ m₂ ?_ place h₂)
    rw [addPair, ended, same, s₂]
    rfl
  | true =>
    obtain ⟨counted, space⟩ := fits rfl
    rw [← same] at counted space
    rw [if_pos rfl]
    have node : (current.address, Cell.node granted ⟨current.keyAddress, current.valueAddress, next⟩) ∈
        l₂.blocks ++ (current.blocks granted next ++ rest) := by simp [Link.blocks]
    have key : (current.keyAddress, Cell.string current.entry.key) ∈
        l₂.blocks ++ (current.blocks granted next ++ rest) := by simp [Link.blocks]
    have value : (current.valueAddress, Cell.string current.entry.value) ∈
        l₂.blocks ++ (current.blocks granted next ++ rest) := by simp [Link.blocks]
    refine wp_bind (wp_loadField .key (Field.reach_le _ room) h₂ node (wp_bind (wp_loadString h₂ key ?_)))
    refine wp_bind (wp_calloc malloc _ h₂ (fun m₃ s₃ h₃ => ?_) fun keyCopy m₃ live s₃ h₃ => ?_)
    · rw [if_pos rfl]
      refine wp_pure (right .nomem l₂ m₃ ?_ place h₃)
      simp only [addPair, ended, Outcome.bind, ← s₂, strdup, s₃, same]
    rw [if_neg live]
    refine wp_bind (wp_loadField .value (Field.reach_le _ room) h₃ (List.mem_cons_of_mem _ node) ?_)
    refine wp_bind (wp_loadString h₃ (List.mem_cons_of_mem _ value) ?_)
    refine wp_bind (wp_calloc malloc _ h₃ (fun m₄ s₄ h₄ => ?_) fun valueCopy m₄ liveValue s₄ h₄ => ?_)
    · rw [if_pos rfl]
      refine wp_bind (wp_free h₄ fun m₅ s₅ h₅ => wp_pure (right .nomem l₂ m₅ ?_ place h₅))
      simp only [addPair, ended, Outcome.bind, ← s₂, strdup, s₃, s₄, same, s₅]
    rw [if_neg liveValue]
    let copy : Copied := ⟨keyCopy, valueCopy, current.entry⟩
    have copied : m₄.heap.Holds (copy.blocks ++ (l₂.blocks ++ (current.blocks granted next ++ rest))) :=
      h₄.perm (List.Perm.swap ..)
    have list : (l₂.address, Cell.kvList l₂.elems l₂.size l₂.allocated) ∈
        copy.blocks ++ (l₂.blocks ++ (current.blocks granted next ++ rest)) := by
      simp [ListLayout.blocks]
    rw [← place]
    refine wp_bind (wp_loadKvList copied list ?_)
    rw [ListLayout.list_elems, List.length_map] at counted space
    refine wp_bind (wp_storeCopy space counted copied fun m₅ s₅ h₅ => wp_pure ?_)
    refine right .none (l₂.push copy) m₅ ?_ place h₅
    have pushed : (l₂.push copy).list =
        { l₂.list with elems := l₂.list.elems ++ [current.entry] } := by
      rw [ListLayout.list, ListLayout.allocated_push space]
      simp [ListLayout.push, copy]
    simp only [addPair, ended, Outcome.bind, ← s₂, strdup, s₃, s₄, pushed, same, s₅]

theorem wp_pairLoop {fuel turns : Nat} {post : ErrorCode → Ram → Prop} (room : 24 ≤ granted)
    {chain : List Link} (enough : chain.length < turns) {l : ListLayout} (valid : l.list.Valid)
    (holds : m.heap.Holds (l.blocks ++ (chainBlocks granted chain ++ rest)))
    (right : ∀ error (l' : ListLayout) m',
      chainLoop (fuel + 2) (chain.map Link.entry) l.list m.supply =
        .done (error, l'.list, m'.supply) →
      l'.address = l.address → (error = .none → l'.list.Valid) →
      m'.heap.Holds (l'.blocks ++ (chainBlocks granted chain ++ rest)) → post error m') :
    wp (Mem.chainLoop (fuel + 2) l.address turns (headOf chain)) post m := by
  induction chain generalizing turns l m rest post with
  | nil =>
    obtain ⟨turns, rfl⟩ : ∃ k, turns = k + 1 := ⟨turns - 1, by omega⟩
    exact wp_pure (right .none l m rfl rfl (fun _ => valid) holds)
  | cons current chain ih =>
    obtain ⟨turns, rfl⟩ : ∃ k, turns = k + 1 := ⟨turns - 1, by omega⟩
    rw [List.length_cons] at enough
    have own : m.heap.Holds (l.blocks ++ (current.blocks granted (headOf chain) ++
        (chainBlocks granted chain ++ rest))) := by
      rw [chainBlocks_cons, List.append_assoc] at holds
      exact holds
    rw [headOf_cons, Mem.chainLoop, if_neg (own.ne_null (List.mem_append_right _ List.mem_cons_self))]
    refine wp_bind (wp_addPair room valid own fun error l₁ m₁ added place h₁ => ?_)
    have whole : m₁.heap.Holds (l₁.blocks ++ (chainBlocks granted (current :: chain) ++ rest)) := by
      rw [chainBlocks_cons, List.append_assoc]
      exact h₁
    cases error with
    | none =>
      have node : (current.address, Cell.node granted
          ⟨current.keyAddress, current.valueAddress, headOf chain⟩) ∈
          l₁.blocks ++ (current.blocks granted (headOf chain) ++
            (chainBlocks granted chain ++ rest)) := by simp [Link.blocks]
      refine wp_bind (wp_loadField .next (Field.reach_le _ room) h₁ node ?_)
      have later : m₁.heap.Holds (l₁.blocks ++ (chainBlocks granted chain ++
          (current.blocks granted (headOf chain) ++ rest))) := h₁.perm (by grind)
      rw [← place]
      refine ih (by omega) (addPair_grown valid added).2 later
        fun error l₂ m₂ listed place₂ valid₂ h₂ => right error l₂ m₂ ?_ (place₂.trans place) valid₂ ?_
      · simp only [List.map_cons, chainLoop, added, Outcome.bind]
        exact listed
      · refine h₂.perm ?_
        rw [chainBlocks_cons]
        grind
    | _ =>
      refine wp_pure (right _ l₁ m₁ ?_ place (by simp) whole)
      simp only [List.map_cons, chainLoop, added, Outcome.bind]

theorem wp_bucketLoop {fuel : Nat} {post : ErrorCode → Ram → Prop} (room : 24 ≤ granted)
    {table elements : Ptr} {size : Nat} {heads : List Ptr} (back : List (List Link)) (i : Nat)
    (same : heads.drop i = back.map headOf) (enough : ∀ chain ∈ back, chain.length < fuel + 2)
    {l : ListLayout} (valid : l.list.Valid)
    (holds : m.heap.Holds (l.blocks ++ ((table, .table elements size) ::
      (elements, .buckets heads) :: (back.flatMap (chainBlocks granted) ++ rest))))
    (right : ∀ error (l' : ListLayout) m',
      bucketLoop (fuel + 2) (back.map fun chain => chain.map Link.entry) l.list m.supply =
        .done (error, l'.list, m'.supply) →
      l'.address = l.address →
      m'.heap.Holds (l'.blocks ++ ((table, .table elements size) ::
        (elements, .buckets heads) :: (back.flatMap (chainBlocks granted) ++ rest))) →
      post error m') :
    wp (Mem.bucketLoop (fuel + 2) l.address table back.length i) post m := by
  induction back generalizing i l m rest post with
  | nil => exact wp_pure (right .none l m rfl rfl holds)
  | cons chain back ih =>
    have here : heads[i]? = some (headOf chain) := by
      rw [← List.head?_drop, same]
      rfl
    have later : heads.drop (i + 1) = back.map headOf := by
      rw [← List.tail_drop, same]
      rfl
    refine wp_bind (wp_loadTable holds (List.mem_append_right _ List.mem_cons_self) ?_)
    refine wp_bind (wp_loadHead holds (List.mem_append_right _
      (List.mem_cons_of_mem _ List.mem_cons_self)) here ?_)
    have own : m.heap.Holds (l.blocks ++ (chainBlocks granted chain ++ ((table, .table elements size) ::
        (elements, .buckets heads) :: (back.flatMap (chainBlocks granted) ++ rest)))) := by
      refine holds.perm ?_
      rw [List.flatMap_cons]
      grind
    refine wp_bind (wp_pairLoop room (enough chain List.mem_cons_self) valid own
      fun error l₁ m₁ listed place valid₁ h₁ => ?_)
    cases error with
    | none =>
      have next : m₁.heap.Holds (l₁.blocks ++ ((table, .table elements size) ::
          (elements, .buckets heads) :: (back.flatMap (chainBlocks granted) ++
            (chainBlocks granted chain ++ rest)))) := h₁.perm (by grind)
      dsimp only
      rw [← place]
      refine ih (i + 1) later (fun chain member => enough chain (List.mem_cons_of_mem _ member))
        (valid₁ rfl) next fun error l₂ m₂ ended place₂ h₂ =>
          right error l₂ m₂ ?_ (place₂.trans place) ?_
      · simp only [List.map_cons, bucketLoop, listed, Outcome.bind]
        exact ended
      · refine h₂.perm ?_
        rw [List.flatMap_cons]
        grind
    | _ =>
      refine wp_pure (right _ l₁ m₁ ?_ place (h₁.perm ?_))
      · simp only [List.map_cons, bucketLoop, listed, Outcome.bind]
      · rw [List.flatMap_cons]
        grind

/-! The whole listing. -/

theorem wp_createKvList (holds : m.heap.Holds blocks) :
    wp Mem.createKvList (fun p m' => ∃ result, createKvList m.supply = (result, m'.supply) ∧
      match result with
      | none => p = 0 ∧ m'.heap.Holds blocks
      | some list => p ≠ 0 ∧
        (list.allocated = 0 ∧ m'.heap.Holds ((p, .kvList 0 0 0) :: blocks) ∨
          list.Valid ∧ ∃ l : ListLayout, l.address = p ∧ l.list = list ∧
            m'.heap.Holds (l.blocks ++ blocks))) m := by
  refine wp_bind (wp_calloc malloc _ holds (fun m₁ s₁ h₁ => ?_) fun list m₁ live s₁ h₁ => ?_)
  · rw [if_pos rfl]
    exact wp_pure ⟨none, by simp only [createKvList, s₁], rfl, h₁⟩
  rw [if_neg live]
  refine wp_bind (wp_calloc malloc _ h₁ (fun m₂ s₂ h₂ => ?_) fun elems m₂ liveArray s₂ h₂ => ?_)
  · refine wp_bind (wp_store _ h₂ fun m₃ s₃ h₃ => ?_)
    rw [if_pos rfl]
    refine wp_pure ⟨some ⟨[], 0, 0⟩, ?_, live, .inl ⟨rfl, h₃⟩⟩
    simp only [createKvList, s₁, s₂, s₃]
  · refine wp_bind (wp_store _ (h₂.perm (List.Perm.swap ..)) fun m₃ s₃ h₃ => ?_)
    rw [if_neg liveArray]
    refine wp_bind (wp_store _ h₃ fun m₄ s₄ h₄ => wp_pure ?_)
    let l : ListLayout := ⟨list, elems, 0, [], List.replicate kvListSize (some (0, 0))⟩
    have room : l.allocated = kvListSize := by simp [ListLayout.allocated, l]
    have start : l.list = ⟨[], 0, kvListSize⟩ := by
      rw [ListLayout.list, room]
      rfl
    refine ⟨some ⟨[], 0, kvListSize⟩, ?_, live, .inr ⟨filling_start.valid, l, rfl, start, ?_⟩⟩
    · simp only [createKvList, s₁, s₂, s₃, s₄]
    · rw [ListLayout.blocks, room]
      exact h₄

theorem wp_getKvPair {l : Layout} {fuel : Nat} {post : ErrorCode → Ram → Prop} (room : 24 ≤ granted)
    (enough : ∀ chain ∈ l.chains, chain.length < fuel + 2) {list : ListLayout}
    (valid : list.list.Valid) (holds : m.heap.Holds (list.blocks ++ (l.blocks granted ++ frame)))
    (right : ∀ error (list' : ListLayout) m',
      getKvPair (fuel + 2) list.list l.table m.supply = .done (error, list'.list, m'.supply) →
      list'.address = list.address →
      m'.heap.Holds (list'.blocks ++ (l.blocks granted ++ frame)) → post error m') :
    wp (Mem.getKvPair (fuel + 2) list.address l.address) post m := by
  have live : list.address ≠ 0 := holds.ne_null List.mem_cons_self
  have table : (l.address, Cell.table l.elements l.chains.length) ∈
      list.blocks ++ (l.blocks granted ++ frame) := List.mem_append_right _ List.mem_cons_self
  have array : (l.elements, Cell.buckets l.heads) ∈ list.blocks ++ (l.blocks granted ++ frame) :=
    List.mem_append_right _ (List.mem_cons_of_mem _ List.mem_cons_self)
  have some : list.allocated ≠ 0 := by
    have := valid.room
    rw [list.list_allocated] at this
    omega
  rw [Mem.getKvPair, if_neg live]
  refine wp_bind (wp_loadTable holds table ?_)
  dsimp only
  rw [if_neg (holds.ne_null array)]
  refine wp_bind (wp_loadKvList holds List.mem_cons_self ?_)
  dsimp only
  rw [if_neg some]
  refine wp_bucketLoop room l.chains 0 rfl enough valid holds fun error list' m' listed place h' =>
    right error list' m' ?_ place h'
  rw [getKvPair, list.list_allocated, if_neg some]
  exact listed

theorem wp_getKvPair_refused {l : Layout} {fuel : Nat} {p : Ptr} {post : ErrorCode → Ram → Prop}
    (holds : m.heap.Holds ((p, .kvList 0 0 0) :: (l.blocks granted ++ frame)))
    (right : post .nomem m) : wp (Mem.getKvPair fuel p l.address) post m := by
  have table : (l.address, Cell.table l.elements l.chains.length) ∈
      (p, .kvList 0 0 0) :: (l.blocks granted ++ frame) :=
    List.mem_cons_of_mem _ List.mem_cons_self
  have array : (l.elements, Cell.buckets l.heads) ∈
      (p, .kvList 0 0 0) :: (l.blocks granted ++ frame) :=
    List.mem_cons_of_mem _ (List.mem_cons_of_mem _ List.mem_cons_self)
  rw [Mem.getKvPair, if_neg (holds.ne_null List.mem_cons_self)]
  refine wp_bind (wp_loadTable holds table ?_)
  dsimp only
  rw [if_neg (holds.ne_null array)]
  refine wp_bind (wp_loadKvList holds List.mem_cons_self ?_)
  dsimp only
  rw [if_pos rfl]
  exact wp_pure right

/-- The pairs whose copies are left behind by a listing that fails with its array allocated. -/
def listingLost (fuel : Nat) (t : Htable) (a : Alloc) : Option (List KvPair) :=
  match createKvList a with
  | (none, _) => none
  | (some list, a) =>
    if list.allocated = 0 then none
    else
      match getKvPair fuel list t a with
      | .done (.none, _, _) => none
      | .done (_, list', _) => some list'.elems
      | _ => none

/-- The blocks left behind: nothing, or an array and the copies it points to. -/
def Abandoned (lost : List (Ptr × Cell)) : Option (List KvPair) → Prop
  | none => lost = []
  | some pairs => ∃ l : ListLayout, l.copies.map Copied.entry = pairs ∧ lost = l.held

theorem wp_getHtableContent {l : Layout} {fuel : Nat} (room : 24 ≤ granted)
    (memory : l.Holds granted frame m) (enough : ∀ chain ∈ l.chains, chain.length < fuel + 2) :
    wp (Mem.getHtableContent (fuel + 2) l.address) (fun p m' => ∃ result,
      getHtableContent (fuel + 2) l.table m.supply = .done (result, m'.supply) ∧
      match result with
      | none => p = 0 ∧ ∃ lost, Abandoned lost (listingLost (fuel + 2) l.table m.supply) ∧
        m'.heap.Holds (lost ++ (l.blocks granted ++ frame))
      | some list => p ≠ 0 ∧ listingLost (fuel + 2) l.table m.supply = none ∧
        ∃ l' : ListLayout, l'.address = p ∧ l'.list = list ∧
          m'.heap.Holds (l'.blocks ++ (l.blocks granted ++ frame))) m := by
  rw [Mem.getHtableContent, if_neg memory.address_ne_null]
  refine wp_bind (wp_mono (wp_createKvList memory.holds) ?_)
  rintro p m₁ ⟨result, created, rest⟩
  cases result with
  | none =>
    obtain ⟨rfl, h₁⟩ := rest
    rw [if_pos rfl]
    refine wp_pure ⟨none, by simp only [getHtableContent, created], rfl, [], ?_, h₁⟩
    simp only [listingLost, created, Abandoned]
  | some list =>
    obtain ⟨live, ⟨full, h₁⟩ | ⟨valid, new, rfl, rfl, h₁⟩⟩ := rest
    · rw [if_neg live]
      refine wp_bind (wp_getKvPair_refused h₁ ?_)
      refine wp_bind (wp_free h₁ fun m₂ s₂ h₂ => wp_pure ?_)
      refine ⟨none, ?_, rfl, [], ?_, h₂⟩
      · simp only [getHtableContent, created, getKvPair, full, ↓reduceIte, Outcome.bind, s₂]
      · simp only [listingLost, created, full, ↓reduceIte, Abandoned]
    · rw [if_neg live]
      have room' : new.list.allocated ≠ 0 := by
        have := valid.room
        omega
      refine wp_bind (wp_getKvPair room enough valid h₁ fun error list m₂ listed place h₂ => ?_)
      cases error with
      | none =>
        refine wp_pure ⟨some list.list, ?_, live, ?_, list, place, rfl, h₂⟩
        · simp only [getHtableContent, created, listed, Outcome.bind]
        · simp only [listingLost, created, room', ↓reduceIte, listed]
      | _ =>
        rw [← place]
        refine wp_bind (wp_free h₂ fun m₃ s₃ h₃ => wp_pure ?_)
        refine ⟨none, ?_, rfl, list.held, ?_, h₃⟩
        · simp only [getHtableContent, created, listed, Outcome.bind, s₃]
        · simp only [listingLost, created, room', ↓reduceIte, listed]
          exact ⟨list, rfl, rfl⟩

/-! Freeing a list. -/

theorem wp_kvPairFree_slot {elems : Ptr} {c : Copied} {front back : List (Option (Ptr × Ptr))}
    {post : Unit → Ram → Prop}
    (holds : m.heap.Holds ((elems, .kvPairs (front ++ c.slot :: back)) :: (c.blocks ++ rest)))
    (right : ∀ m', m'.supply = m.supply →
      m'.heap.Holds ((elems, .kvPairs (front ++ some (0, 0) :: back)) :: rest) → post () m') :
    wp (Mem.kvPairFree (.inArray elems front.length)) post m := by
  have slot : (front ++ c.slot :: back)[front.length]? = some (some (c.keyAddress, c.valueAddress)) :=
    by simp [Copied.slot]
  refine wp_bind (wp_bind (wp_load holds List.mem_cons_self ?_))
  simp only [slot]
  refine wp_pure ?_
  refine wp_bind (wp_free (holds.perm (List.Perm.swap ..)) fun m₁ s₁ h₁ => ?_)
  refine wp_bind (wp_free (h₁.perm (List.Perm.swap ..)) fun m₂ s₂ h₂ => ?_)
  refine wp_bind (wp_load h₂ List.mem_cons_self ?_)
  have inside : front.length < (front ++ c.slot :: back).length := by simp
  dsimp only
  rw [if_pos inside]
  refine wp_store _ h₂ fun m₃ s₃ h₃ => right m₃ (by rw [s₃, s₂, s₁]) ?_
  simpa using h₃

theorem wp_freeLoop {list elems : Ptr} {size allocated : Nat} {post : Unit → Ram → Prop}
    (copies : List Copied) (front back : List (Option (Ptr × Ptr)))
    (holds : m.heap.Holds ((list, .kvList elems size allocated) ::
      (elems, .kvPairs (front ++ (copies.map Copied.slot ++ back))) ::
      (copies.flatMap Copied.blocks ++ rest)))
    (right : ∀ slots m', m'.supply = m.supply →
      m'.heap.Holds ((list, .kvList elems size allocated) :: (elems, .kvPairs slots) :: rest) →
      post () m') :
    wp (Mem.freeLoop list copies.length front.length) post m := by
  induction copies generalizing front m with
  | nil => exact wp_pure (right _ m rfl holds)
  | cons c copies ih =>
    refine wp_bind (wp_loadKvList holds List.mem_cons_self ?_)
    have own : m.heap.Holds ((elems, .kvPairs (front ++ c.slot :: (copies.map Copied.slot ++ back))) ::
        (c.blocks ++ ((list, .kvList elems size allocated) ::
          (copies.flatMap Copied.blocks ++ rest)))) := by
      refine holds.perm ?_
      rw [List.map_cons, List.flatMap_cons, List.cons_append]
      grind
    refine wp_bind (wp_kvPairFree_slot own fun m₁ s₁ h₁ => ?_)
    have next : m₁.heap.Holds ((list, .kvList elems size allocated) ::
        (elems, .kvPairs ((front ++ [some (0, 0)]) ++ (copies.map Copied.slot ++ back))) ::
        (copies.flatMap Copied.blocks ++ rest)) := by
      refine h₁.perm ?_
      rw [List.append_assoc, List.singleton_append]
      exact List.Perm.swap ..
    have later := ih (front ++ [some (0, 0)]) next fun slots m₂ s₂ h₂ =>
      right slots m₂ (s₂.trans s₁) h₂
    rwa [List.length_append] at later

/-- All of a list is freed but the list itself. -/
theorem wp_kvListFree {l : ListLayout} {post : Unit → Ram → Prop} (counted : l.size = l.copies.length)
    (holds : m.heap.Holds (l.blocks ++ rest))
    (right : ∀ m', m'.supply = m.supply →
      m'.heap.Holds ((l.address, .kvList 0 0 0) :: rest) → post () m') :
    wp (Mem.kvListFree l.address) post m := by
  have live : l.address ≠ 0 := holds.ne_null List.mem_cons_self
  rw [Mem.kvListFree, if_neg live]
  refine wp_bind (wp_loadKvList holds List.mem_cons_self ?_)
  rw [counted]
  refine wp_bind (wp_freeLoop l.copies [] l.spare holds fun slots m₁ s₁ h₁ => ?_)
  refine wp_bind (wp_loadKvList h₁ List.mem_cons_self ?_)
  refine wp_bind (wp_free (h₁.perm (List.Perm.swap ..)) fun m₂ s₂ h₂ => ?_)
  exact wp_store _ h₂ fun m₃ s₃ h₃ => right m₃ (by rw [s₃, s₂, s₁]) h₃

theorem ListLayout.counted {t : Htable} {fuel : Nat} {a a' : Alloc} {l : ListLayout}
    (content : getHtableContent (fuel + 2) t a = .done (some l.list, a')) :
    l.size = l.copies.length := by
  obtain ⟨whole, counted, _⟩ := getHtableContent_some content
  rw [l.list_elems] at whole
  rw [l.list_size, ← whole, List.length_map] at counted
  exact counted

/-- The table is left as it was. A listing that succeeds holds copies of the table's pairs,
and freeing it frees all of them and the array, each once, but not the list itself. One that
fails returns NULL and leaves its array and the copies made until then, or nothing when the
array could not be allocated. -/
theorem listing_accounted (granted : Nat) (room : 24 ≤ granted) (l : Layout)
    (frame : List (Ptr × Cell)) (m : Ram) (memory : l.Holds granted frame m) (fuel : Nat)
    (enough : ∀ chain ∈ l.chains, chain.length < fuel + 2) :
    wp (Mem.getHtableContent (fuel + 2) l.address) (fun p m₁ => ∃ result,
      getHtableContent (fuel + 2) l.table m.supply = .done (result, m₁.supply) ∧
      match result with
      | none => p = 0 ∧ ∃ lost, Abandoned lost (listingLost (fuel + 2) l.table m.supply) ∧
        m₁.heap.Holds (lost ++ (l.blocks granted ++ frame))
      | some list => p ≠ 0 ∧
        (∃ l' : ListLayout, l'.address = p ∧ l'.list = list ∧
          l'.copies.map Copied.entry = l.table.content ∧
          m₁.heap.Holds (l'.blocks ++ (l.blocks granted ++ frame))) ∧
        wp (Mem.kvListFree p) (fun _ m₂ => m₂.supply = m₁.supply ∧
          m₂.heap.Holds ((p, .kvList 0 0 0) :: (l.blocks granted ++ frame))) m₁) m := by
  refine wp_mono (wp_getHtableContent room memory enough) ?_
  rintro p m₁ ⟨result, content, rest⟩
  refine ⟨result, content, ?_⟩
  cases result with
  | none => exact rest
  | some list =>
    obtain ⟨live, _, l₁, rfl, rfl, h₁⟩ := rest
    obtain ⟨whole, _, _⟩ := getHtableContent_some content
    refine ⟨live, ⟨l₁, rfl, rfl, whole, h₁⟩, ?_⟩
    exact wp_kvListFree (ListLayout.counted content) h₁ fun m₂ s₂ h₂ => ⟨s₂, h₂⟩

def oneEntry : KvPair := ⟨.ofMemory [97], .ofMemory [49]⟩

def oneTable : Htable := (Htable.empty 1).put oneEntry.key oneEntry.value

theorem content_oneTable : oneTable.content = [oneEntry] := by decide

/-- The table is built in memory with five allocations, before any others. -/
theorem exists_oneTable (rest : Alloc) : ∃ (l : Layout) (m : Ram), l.table = oneTable ∧
    m.supply = rest ∧ l.Holds 24 [] m ∧ ∀ chain ∈ l.chains, chain.length < 2 := by
  obtain ⟨table, m₁, _, result, same, new⟩ := wp_constructHtable
    (m := ⟨Heap.empty, true :: true :: true :: true :: true :: rest⟩) 24
    (show 0 < 1 by decide) Heap.holds_empty
  obtain ⟨rfl, left⟩ := Prod.mk.inj same
  obtain ⟨l, rfl, empty, memory⟩ := new
  have vacant : (l.chain (hashFunction oneEntry.key l.chains.length)).length < 1 := by
    rw [← List.length_map Link.entry, ← l.bucket_table, empty, Htable.bucket_empty]
    decide
  obtain ⟨error, m₂, _, l₂, lost, added, _, dropped, memory₂⟩ :
      wp (Mem.addHtableValue 1 24 l.address oneEntry.key oneEntry.value) _ m₁ :=
    wp_addHtableValue (by decide) memory vacant
  have put : addHtableValue (Htable.empty 1) oneEntry.key oneEntry.value
      (true :: true :: true :: rest) = (.none, oneTable, rest) := rfl
  have nothing : (Htable.empty 1).addLost oneEntry.key (true :: true :: true :: rest) = [] := rfl
  have left₁ : m₁.supply = true :: true :: true :: rest := left.symm
  rw [empty, left₁, put] at added
  rw [empty, left₁, nothing, List.map_eq_nil_iff] at dropped
  obtain ⟨_, table₂, left₂⟩ : _ ∧ _ ∧ _ := by simpa only [Prod.mk.injEq] using added
  rw [dropped] at memory₂
  exact ⟨l₂, m₂, table₂.symm, left₂.symm, memory₂, Layout.length_chain_lt (table₂ ▸
    (Htable.within_empty 1).put (by decide) oneEntry.key oneEntry.value) (show 1 < 2 by decide)⟩

/-- One pair is listed and the list is freed; then the copy of its value fails, and the array
is left. -/
theorem listing_accounted_one :
    (∃ (l : Layout) (m m₁ m₂ : Ram) (copied : ListLayout), l.table = oneTable ∧
      Mem.getHtableContent 2 l.address m = .done (copied.address, m₁) ∧
      copied.copies.map Copied.entry = [oneEntry] ∧
      m₁.heap.Holds (copied.blocks ++ (l.blocks 24 ++ [])) ∧
      Mem.kvListFree copied.address m₁ = .done ((), m₂) ∧
      m₂.heap.Holds ((copied.address, .kvList 0 0 0) :: (l.blocks 24 ++ []))) ∧
    ∃ (l : Layout) (m m₁ : Ram) (lost : List (Ptr × Cell)), l.table = oneTable ∧
      Mem.getHtableContent 2 l.address m = .done (0, m₁) ∧ Abandoned lost (some []) ∧
      m₁.heap.Holds (lost ++ (l.blocks 24 ++ [])) := by
  constructor
  · obtain ⟨l, m, table, supply, memory, short⟩ := exists_oneTable []
    obtain ⟨p, m₁, ended, result, content, rest⟩ :=
      listing_accounted 24 (by decide) l [] m memory 0 short
    have listed : getHtableContent 2 oneTable [] = .done (some ⟨[oneEntry], 1, kvListSize⟩, []) := by
      decide +kernel
    rw [table, supply, listed] at content
    obtain ⟨rfl, _⟩ := Prod.mk.inj (Outcome.done.inj content)
    obtain ⟨_, ⟨copied, rfl, _, pairs, holds⟩, _, m₂, freed, _, holds₂⟩ := rest
    rw [table, content_oneTable] at pairs
    exact ⟨l, m, m₁, m₂, copied, table, ended, pairs, holds, freed, holds₂⟩
  · obtain ⟨l, m, table, supply, memory, short⟩ := exists_oneTable [true, true, true, false]
    obtain ⟨p, m₁, ended, result, content, rest⟩ :=
      listing_accounted 24 (by decide) l [] m memory 0 short
    have failed : getHtableContent 2 oneTable [true, true, true, false] = .done (none, []) := by
      decide +kernel
    have copied : listingLost 2 oneTable [true, true, true, false] = some [] := by decide +kernel
    rw [table, supply, failed] at content
    obtain ⟨rfl, _⟩ := Prod.mk.inj (Outcome.done.inj content)
    obtain ⟨rfl, lost, abandoned, holds⟩ := rest
    rw [table, supply, copied] at abandoned
    exact ⟨l, m, m₁, lost, table, ended, abandoned, holds⟩

end PpsDht
