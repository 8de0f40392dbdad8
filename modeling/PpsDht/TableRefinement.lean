import PpsDht.HtableDelete
import PpsDht.TableLayout

/-! Every operation of `hashtable.c` on memory does to the layout what the operation on
lists does to the table, asks the allocator for the same, and changes no other block. What
is lost on the way is listed: a copied key when the copy of its value fails, and the node
of every deleted pair. -/
namespace PpsDht

open CLib Loop Heap Prog

variable {m : Ram} {blocks rest frame : List (Ptr × Cell)} {granted : Nat}

/-! Insertion. -/

/-- What `create_node` leaves behind: the copy of the key, when only the value's failed. -/
def lostCopy (key : CString) (a : Alloc) : List Cell :=
  match malloc a with
  | (false, _) => []
  | (true, a) =>
    match malloc a with
    | (false, _) => []
    | (true, a) => if (malloc a).1 then [] else [.string key]

theorem wp_createNode {key value : CString} {post : Ptr → Ram → Prop} (room : 16 ≤ granted)
    (holds : m.heap.Holds blocks)
    (failed : ∀ lost m', createNode key value m.supply = (none, m'.supply) →
      lost.map Prod.snd = lostCopy key m.supply → m'.heap.Holds (lost ++ blocks) → post 0 m')
    (created : ∀ (l : Link) m', createNode key value m.supply = (some ⟨key, value⟩, m'.supply) →
      lostCopy key m.supply = [] → l.address ≠ 0 → l.entry = ⟨key, value⟩ →
      m'.heap.Holds (l.blocks granted 0 ++ blocks) → post l.address m') :
    wp (Mem.createNode granted key value) post m := by
  refine wp_bind (wp_calloc malloc _ holds (fun m₁ s₁ h₁ => ?_) fun node m₁ live s₁ h₁ => ?_)
  · rw [if_pos rfl]
    exact wp_pure (failed [] m₁ (by simp only [createNode, s₁]) (by simp [lostCopy, s₁]) h₁)
  rw [if_neg live]
  refine wp_bind (wp_calloc malloc _ h₁ (fun m₂ s₂ h₂ => ?_) fun keyCopy m₂ liveKey s₂ h₂ => ?_)
  · refine wp_bind (wp_storeField .key 0 (Nat.le_trans (by decide) room) h₂ fun m₃ s₃ h₃ => ?_)
    rw [if_pos rfl]
    refine wp_bind (wp_free h₃ fun m₄ s₄ h₄ => wp_pure (failed [] m₄ ?_ ?_ h₄))
    · simp only [createNode, PpsDht.strdup, s₁, s₂, s₃, s₄]
    · simp [lostCopy, s₁, s₂]
  refine wp_bind (wp_storeField .key keyCopy (Nat.le_trans (by decide) room) (h₂.perm (List.Perm.swap ..))
    fun m₃ s₃ h₃ => ?_)
  rw [if_neg liveKey]
  refine wp_bind (wp_calloc malloc _ h₃ (fun m₄ s₄ h₄ => ?_) fun valueCopy m₄ liveValue s₄ h₄ => ?_)
  · refine wp_bind (wp_storeField .value 0 (Nat.le_trans (by decide) room) h₄ fun m₅ s₅ h₅ => ?_)
    rw [if_pos rfl]
    refine wp_bind (wp_free_null (wp_bind (wp_free h₅ fun m₆ s₆ h₆ => wp_pure ?_)))
    refine failed [(keyCopy, .string key)] m₆ ?_ ?_ h₆
    · simp only [createNode, PpsDht.strdup, s₁, s₂, ← s₃, s₄, s₅, s₆]
    · simp [lostCopy, s₁, s₂, ← s₃, s₄]
  refine wp_bind (wp_storeField .value valueCopy (Nat.le_trans (by decide) room) (h₄.perm (List.Perm.swap ..))
    fun m₅ s₅ h₅ => ?_)
  rw [if_neg liveValue]
  refine wp_pure (created ⟨node, keyCopy, valueCopy, ⟨key, value⟩⟩ m₅ ?_ ?_ live rfl ?_)
  · simp only [createNode, PpsDht.strdup, s₁, s₂, ← s₃, s₄, s₅]
  · simp [lostCopy, s₁, s₂, ← s₃, s₄]
  · exact h₅.perm (by simp only [Link.blocks, TableNode.set]; grind)

theorem wp_matchesAt {l : Link} {next : Ptr} {key : CString} {post : Bool → Ram → Prop}
    (room : 8 ≤ granted) (holds : m.heap.Holds (l.blocks granted next ++ rest))
    (right : post (decide (keyMatches l.entry key)) m) :
    wp (Mem.matchesAt l.address key) post m := by
  refine wp_bind (wp_loadField .key room holds List.mem_cons_self ?_)
  exact wp_bind (wp_loadString holds (List.mem_cons_of_mem _ List.mem_cons_self) (wp_pure right))

theorem wp_loadNext {l : Link} {next : Ptr} {post : Ptr → Ram → Prop} (room : 24 ≤ granted)
    (holds : m.heap.Holds (l.blocks granted next ++ rest)) (right : post next m) :
    wp (Mem.loadField l.address .next) post m :=
  wp_loadField .next (Field.reach_le _ room) holds List.mem_cons_self right

theorem wp_storeNext {l : Link} {next target : Ptr} {post : Unit → Ram → Prop}
    (room : 24 ≤ granted) (holds : m.heap.Holds (l.blocks granted next ++ rest))
    (right : ∀ m', m'.supply = m.supply → m'.heap.Holds (l.blocks granted target ++ rest) →
      post () m') : wp (Mem.storeField l.address .next target) post m :=
  wp_storeField .next target (Field.reach_le _ room) holds right

theorem address_ne_null {l : Link} {next : Ptr}
    (holds : m.heap.Holds (l.blocks granted next ++ rest)) : l.address ≠ 0 :=
  holds.ne_null List.mem_cons_self

theorem behind_perm (l : Link) (chain : List Link) :
    (chainBlocks granted (l :: chain) ++ rest).Perm
      (chainBlocks granted chain ++ (l.blocks granted (headOf chain) ++ rest)) := by
  rw [chainBlocks_cons]
  grind

theorem wp_updateLoop {key value : CString} {post : Option ErrorCode → Ram → Prop} {fuel : Nat}
    (room : 24 ≤ granted) {chain : List Link} (enough : chain.length < fuel)
    (holds : m.heap.Holds (chainBlocks granted chain ++ rest))
    (missed : updateLoop key value m.supply (chain.map Link.entry) = none → post none m)
    (failed : ∀ m', updateLoop key value m.supply (chain.map Link.entry) =
        some (none, m'.supply) →
      m'.heap.Holds (chainBlocks granted chain ++ rest) → post (some .nomem) m')
    (updated : ∀ chain' m', updateLoop key value m.supply (chain.map Link.entry) =
        some (some (chain'.map Link.entry), m'.supply) → headOf chain' = headOf chain →
      m'.heap.Holds (chainBlocks granted chain' ++ rest) → post (some .none) m') :
    wp (Mem.updateLoop key value fuel (headOf chain)) post m := by
  induction chain generalizing fuel rest post with
  | nil =>
    obtain ⟨fuel, rfl⟩ : ∃ k, fuel = k + 1 := ⟨fuel - 1, by omega⟩
    exact wp_pure (missed rfl)
  | cons l chain ih =>
    obtain ⟨fuel, rfl⟩ : ∃ k, fuel = k + 1 := ⟨fuel - 1, by omega⟩
    rw [chainBlocks_cons, List.append_assoc] at holds
    rw [headOf_cons, Mem.updateLoop, if_neg (address_ne_null holds)]
    refine wp_bind (wp_matchesAt (Field.key.reach_le room) holds ?_)
    by_cases found : keyMatches l.entry key
    · rw [if_pos (decide_eq_true found)]
      refine wp_bind (wp_calloc malloc _ holds (fun m₁ s₁ h₁ => ?_) fun new m₁ live s₁ h₁ => ?_)
      · rw [if_pos rfl]
        refine wp_pure (failed m₁ ?_ ?_)
        · simp only [List.map_cons, updateLoop, found, ↓reduceIte, PpsDht.strdup, s₁]
        · rwa [chainBlocks_cons, List.append_assoc]
      rw [if_neg live]
      have member : (l.address, Cell.node granted ⟨l.keyAddress, l.valueAddress, headOf chain⟩) ∈
          (new, .string value) :: (l.blocks granted (headOf chain) ++
            (chainBlocks granted chain ++ rest)) :=
        List.mem_cons_of_mem _ List.mem_cons_self
      refine wp_bind (wp_loadField .value (Field.reach_le _ room) h₁ member ?_)
      have own : m₁.heap.Holds ((l.valueAddress, .string l.entry.value) ::
          (l.address, .node granted ⟨l.keyAddress, l.valueAddress, headOf chain⟩) ::
          (new, .string value) :: (l.keyAddress, .string l.entry.key) ::
          (chainBlocks granted chain ++ rest)) :=
        h₁.perm (by simp only [Link.blocks]; grind)
      refine wp_bind (wp_free own fun m₂ s₂ h₂ => ?_)
      refine wp_bind (wp_storeField .value new (Field.reach_le _ room) h₂ fun m₃ s₃ h₃ => wp_pure ?_)
      refine updated (⟨l.address, l.keyAddress, new, ⟨l.entry.key, value⟩⟩ :: chain) m₃ ?_ rfl ?_
      · simp only [List.map_cons, updateLoop, found, ↓reduceIte, PpsDht.strdup, s₁, s₂, s₃]
      · refine h₃.perm ?_
        simp only [chainBlocks_cons, Link.blocks, TableNode.set]
        grind
    · rw [if_neg (by simpa using found)]
      refine wp_bind (wp_loadNext room holds ?_)
      rw [List.length_cons] at enough
      have whole : m.heap.Holds
          (chainBlocks granted chain ++ (l.blocks granted (headOf chain) ++ rest)) :=
        holds.perm (List.append_assoc .. ▸ behind_perm l chain)
      refine ih (by omega) whole (fun none => missed ?_) (fun m' some h' => failed m' ?_ ?_)
        fun chain' m' some same h' => updated (l :: chain') m' ?_ rfl ?_
      · simp only [List.map_cons, updateLoop, found, ↓reduceIte, none, Option.map_none]
      · simp only [List.map_cons, updateLoop, found, ↓reduceIte, some, Option.map_some,
          Option.map_none]
      · exact h'.perm (behind_perm l chain).symm
      · simp only [List.map_cons, updateLoop, found, ↓reduceIte, some, Option.map_some]
      · rw [← same] at h'
        exact h'.perm (behind_perm l chain').symm

/-- What one insertion loses, next to what it does to the table. -/
def Htable.addLost (t : Htable) (key : CString) (a : Alloc) : List Cell :=
  if ∃ e ∈ t.bucket (hashFunction key t.size), keyMatches e key then [] else lostCopy key a

theorem updateLoop_eq_none_iff {key value : CString} {a : Alloc} {b : Bucket} :
    updateLoop key value a b = none ↔ ∀ e ∈ b, ¬ keyMatches e key := by
  simp only [updateLoop_eq, Option.map_eq_none_iff, Chain.update_eq_none_iff, keyMatches_iff]

theorem matches_of_updateLoop {key value : CString} {a : Alloc} {b : Bucket}
    {updated : Option Bucket × Alloc} (hit : updateLoop key value a b = some updated) :
    ∃ e ∈ b, keyMatches e key := by
  by_contra missed
  have none : updateLoop key value a b = none := updateLoop_eq_none_iff.mpr (by simpa using missed)
  rw [hit] at none
  contradiction

/-- The memory of a table next to blocks that are not the table's. -/
structure Layout.Holds (granted : Nat) (l : Layout) (frame : List (Ptr × Cell)) (m : Ram) :
    Prop where
  positive : 0 < l.chains.length
  holds : m.heap.Holds (l.blocks granted ++ frame)

namespace Layout.Holds

variable {l : Layout}

theorem elements_ne_null (memory : l.Holds granted frame m) : l.elements ≠ 0 :=
  memory.holds.ne_null (List.mem_cons_of_mem _ List.mem_cons_self)

theorem address_ne_null (memory : l.Holds granted frame m) : l.address ≠ 0 :=
  memory.holds.ne_null List.mem_cons_self

theorem wp_loadTable (memory : l.Holds granted frame m) {post : Ptr × Nat → Ram → Prop}
    (right : post (l.elements, l.chains.length) m) : wp (Mem.loadTable l.address) post m :=
  PpsDht.wp_loadTable memory.holds List.mem_cons_self right

theorem inside (memory : l.Holds granted frame m) (key : CString) :
    hashFunction key l.chains.length < l.chains.length := hashFunction_lt key memory.positive

theorem wp_loadHead (memory : l.Holds granted frame m) (key : CString) {post : Ptr → Ram → Prop}
    (right : post (headOf (l.chain (hashFunction key l.chains.length))) m) :
    wp (Mem.loadHead l.elements (hashFunction key l.chains.length)) post m :=
  PpsDht.wp_loadHead memory.holds (List.mem_cons_of_mem _ List.mem_cons_self)
    (l.heads_getElem? (memory.inside key)) right

theorem focus (memory : l.Holds granted frame m) (key : CString) :
    m.heap.Holds (chainBlocks granted (l.chain (hashFunction key l.chains.length)) ++
      ((l.elements, .buckets l.heads) ::
        (l.others granted (hashFunction key l.chains.length) ++ frame))) := by
  refine memory.holds.perm (((l.blocks_focus granted (memory.inside key)).append_right frame).trans ?_)
  grind

theorem setChain (memory : l.Holds granted frame m) (key : CString) {chain : List Link} {m' : Ram}
    {lost : List (Ptr × Cell)}
    (holds : m'.heap.Holds ((l.elements, .buckets (l.heads.set (hashFunction key l.chains.length)
      (headOf chain))) :: (chainBlocks granted chain ++
        (l.others granted (hashFunction key l.chains.length) ++ (lost ++ frame))))) :
    (l.setChain (hashFunction key l.chains.length) chain).Holds granted (lost ++ frame) m' where
  positive := by
    rw [Layout.setChain, List.length_set]
    exact memory.positive
  holds := by
    refine holds.perm (List.Perm.trans ?_
      ((l.blocks_setChain granted (memory.inside key) chain).symm.append_right _))
    grind

end Layout.Holds

/-- What is left of a table in which only one chain may have changed. -/
theorem Layout.Holds.unfocus {l : Layout} (memory : l.Holds granted frame m) (key : CString)
    {m' : Ram} {lost : List (Ptr × Cell)}
    (holds : m'.heap.Holds (lost ++
      (chainBlocks granted (l.chain (hashFunction key l.chains.length)) ++
        ((l.elements, .buckets l.heads) ::
          (l.others granted (hashFunction key l.chains.length) ++ frame))))) :
    l.Holds granted (lost ++ frame) m' where
  positive := memory.positive
  holds := by
    refine holds.perm (List.Perm.trans ?_
      ((l.blocks_focus granted (memory.inside key)).symm.append_right _))
    grind

/-- The empty chain is no special case: an update finds nothing in it. -/
theorem addHtableValue_eq (t : Htable) (key value : CString) (a : Alloc) :
    addHtableValue t key value a =
      match updateLoop key value a (t.bucket (hashFunction key t.size)) with
      | some (none, a) => (.nomem, t, a)
      | some (some updated, a) => (.none, t.setBucket (hashFunction key t.size) updated, a)
      | none =>
        match createNode key value a with
        | (none, a) => (.nomem, t, a)
        | (some node, a) => (.none, t.setBucket (hashFunction key t.size)
            (node :: t.bucket (hashFunction key t.size)), a) := by
  unfold addHtableValue
  dsimp only
  generalize t.bucket (hashFunction key t.size) = bucket
  cases bucket <;> rfl

/-- The first pair of a chain: its node is linked without a look at its next field. -/
theorem wp_addHtableValue_first {l : Layout} {key value : CString} {fuel : Nat}
    (room : 16 ≤ granted) (memory : l.Holds granted frame m)
    (whole : l.chain (hashFunction key l.chains.length) = []) :
    wp (Mem.addHtableValue fuel granted l.address key value) (fun error m' =>
      ∃ (l' : Layout) (lost : List (Ptr × Cell)),
        addHtableValue l.table key value m.supply = (error, l'.table, m'.supply) ∧
        l'.address = l.address ∧ lost.map Prod.snd = l.table.addLost key m.supply ∧
        l'.Holds granted (lost ++ frame) m') m := by
  have focus := memory.focus key
  have inside : hashFunction key l.chains.length < l.heads.length := by
    rw [l.length_heads]
    exact memory.inside key
  simp only [addHtableValue_eq, Htable.addLost, l.size_table, l.bucket_table, whole]
  rw [Mem.addHtableValue, if_neg memory.address_ne_null]
  refine wp_bind (memory.wp_loadTable ?_)
  dsimp only
  rw [if_neg memory.elements_ne_null]
  refine wp_bind (memory.wp_loadHead key ?_)
  rw [whole, headOf_nil, if_pos rfl]
  refine wp_bind (wp_createNode room focus (fun lost m' failed same h' => ?_)
    fun link m' created same live entry h' => ?_)
  · rw [if_pos rfl]
    refine wp_pure ⟨l, lost, ?_, rfl, by simpa using same, memory.unfocus key h'⟩
    simp only [List.map_nil, updateLoop, failed]
  · rw [if_neg live]
    rw [whole, chainBlocks_nil, List.nil_append] at h'
    refine wp_bind (wp_storeHead link.address (h'.perm List.perm_middle) inside
      fun m'' s'' h'' => wp_pure ?_)
    refine ⟨l.setChain _ [link], [], ?_, rfl, by simpa using same.symm, memory.setChain key ?_⟩
    · simp only [List.map_nil, updateLoop, created, l.table_setChain, List.map_cons, entry, s'']
    · simpa using h''

theorem wp_addHtableValue {l : Layout} {key value : CString} {fuel : Nat} (room : 24 ≤ granted)
    (memory : l.Holds granted frame m)
    (enough : (l.chain (hashFunction key l.chains.length)).length < fuel) :
    wp (Mem.addHtableValue fuel granted l.address key value) (fun error m' =>
      ∃ (l' : Layout) (lost : List (Ptr × Cell)),
        addHtableValue l.table key value m.supply = (error, l'.table, m'.supply) ∧
        l'.address = l.address ∧ lost.map Prod.snd = l.table.addLost key m.supply ∧
        l'.Holds granted (lost ++ frame) m') m := by
  have focus := memory.focus key
  have inside : hashFunction key l.chains.length < l.heads.length := by
    rw [l.length_heads]
    exact memory.inside key
  cases whole : l.chain (hashFunction key l.chains.length) with
  | nil => exact wp_addHtableValue_first (Nat.le_trans (by decide) room) memory whole
  | cons front chain =>
    simp only [addHtableValue_eq, Htable.addLost, l.size_table, l.bucket_table, whole]
    rw [Mem.addHtableValue, if_neg memory.address_ne_null]
    refine wp_bind (memory.wp_loadTable ?_)
    dsimp only
    rw [if_neg memory.elements_ne_null]
    refine wp_bind (memory.wp_loadHead key ?_)
    rw [whole]
    have linked : front.address ≠ 0 := by
      rw [whole, chainBlocks_cons, List.append_assoc] at focus
      exact PpsDht.address_ne_null focus
    rw [headOf_cons, if_neg linked]
    rw [whole] at enough
    have chained := focus
    rw [whole] at chained
    refine wp_bind (wp_updateLoop room enough chained
      (fun missed => ?_) (fun m' failed h' => wp_pure ?_) fun changed m' updated same h' =>
        wp_pure ?_)
    · have unmatched : ¬ ∃ e ∈ (front :: chain).map Link.entry, keyMatches e key := by
        rintro ⟨e, member, found⟩
        exact updateLoop_eq_none_iff.mp missed e member found
      rw [if_neg unmatched]
      refine wp_bind (wp_createNode (Nat.le_trans (by decide) room) focus (fun lost m' failed same h' => ?_)
        fun link m' created same live entry h' => ?_)
      · rw [if_pos rfl]
        refine wp_pure ⟨l, lost, ?_, rfl, same, memory.unfocus key h'⟩
        simp only [missed, failed]
      · rw [if_neg live]
        refine wp_bind (wp_storeNext room h' fun m₁ s₁ h₁ => ?_)
        have head : m₁.heap.Holds ((l.elements, .buckets l.heads) ::
            (chainBlocks granted (link :: front :: chain) ++
              (l.others granted (hashFunction key l.chains.length) ++ frame))) := by
          rw [whole] at h₁
          refine h₁.perm ?_
          rw [chainBlocks_cons granted link, headOf_cons]
          grind
        refine wp_bind (wp_storeHead link.address head inside fun m₂ s₂ h₂ => wp_pure ?_)
        refine ⟨l.setChain _ (link :: front :: chain), [], ?_, rfl, same.symm,
          memory.setChain key h₂⟩
        simp only [missed, created]
        simp only [l.table_setChain, List.map_cons, entry, s₂, s₁]
    · rw [if_pos (matches_of_updateLoop failed)]
      exact ⟨l, [], by simp only [failed], rfl, rfl, memory.unfocus key (whole ▸ h')⟩
    · rw [if_pos (matches_of_updateLoop updated)]
      refine ⟨l.setChain _ changed, [], ?_, rfl, rfl, memory.setChain key ?_⟩
      · simp only [updated, l.table_setChain]
      · have kept : l.heads.set (hashFunction key l.chains.length) (headOf changed) = l.heads := by
          rw [same, ← whole]
          exact l.heads_set_self (memory.inside key)
        rw [kept]
        exact h'.perm List.perm_middle

/-! Lookup. -/

/-- The caller's copy of a value: NULL for no value, else a string of its own. -/
def Returned (p : Ptr) : Option CString → List (Ptr × Cell) → Prop
  | none, copy => p = 0 ∧ copy = []
  | some value, copy => p ≠ 0 ∧ copy = [(p, .string value)]

theorem wp_strdup {s : CString} (holds : m.heap.Holds blocks) :
    wp (Mem.strdup s) (fun p m' => ∃ result copy, strdup s m.supply = (result, m'.supply) ∧
      Returned p result copy ∧ m'.heap.Holds (copy ++ blocks)) m := by
  refine wp_calloc malloc _ holds (fun m' refused h' => ?_) fun new m' live granted h' => ?_
  · exact ⟨none, [], by simp only [strdup, refused], ⟨rfl, rfl⟩, h'⟩
  · exact ⟨some s, [(new, .string s)], by simp only [strdup, granted], ⟨live, rfl⟩, h'⟩

theorem wp_findLoop {key : CString} {fuel : Nat} {post : Ptr → Ram → Prop} (room : 24 ≤ granted)
    {chain : List Link} (enough : chain.length < fuel)
    (holds : m.heap.Holds (chainBlocks granted chain ++ rest))
    (missed : findLoop key (chain.map Link.entry) = none → post 0 m)
    (found : ∀ value, findLoop key (chain.map Link.entry) = some value →
      wp (Mem.strdup value) post m) :
    wp (Mem.findLoop key fuel (headOf chain)) post m := by
  induction chain generalizing fuel rest with
  | nil =>
    obtain ⟨fuel, rfl⟩ : ∃ k, fuel = k + 1 := ⟨fuel - 1, by omega⟩
    exact wp_pure (missed rfl)
  | cons l chain ih =>
    obtain ⟨fuel, rfl⟩ : ∃ k, fuel = k + 1 := ⟨fuel - 1, by omega⟩
    have whole := holds.perm (behind_perm l chain)
    rw [chainBlocks_cons, List.append_assoc] at holds
    rw [headOf_cons, Mem.findLoop, if_neg (address_ne_null holds)]
    refine wp_bind (wp_matchesAt (Field.key.reach_le room) holds ?_)
    simp only [List.map_cons, findLoop] at missed found
    by_cases hit : keyMatches l.entry key
    · rw [if_pos (decide_eq_true hit)]
      rw [if_pos hit] at found
      refine wp_bind (wp_loadField .value (Field.reach_le _ room) holds List.mem_cons_self ?_)
      have value : (l.valueAddress, Cell.string l.entry.value) ∈
          l.blocks granted (headOf chain) ++ (chainBlocks granted chain ++ rest) := by
        simp [Link.blocks]
      exact wp_bind (wp_loadString holds value (found _ rfl))
    · rw [if_neg (by simpa using hit)]
      rw [if_neg hit] at missed found
      refine wp_bind (wp_loadNext room holds ?_)
      rw [List.length_cons] at enough
      exact ih (by omega) whole missed found

theorem wp_getHtableValue {l : Layout} {key : CString} {fuel : Nat} (room : 24 ≤ granted)
    (memory : l.Holds granted frame m)
    (enough : (l.chain (hashFunction key l.chains.length)).length < fuel) :
    wp (Mem.getHtableValue fuel l.address key) (fun p m' => ∃ result copy,
      getHtableValue l.table key m.supply = (result, m'.supply) ∧ Returned p result copy ∧
        l.Holds granted (copy ++ frame) m') m := by
  refine wp_bind (memory.wp_loadTable ?_)
  dsimp only
  rw [if_neg memory.elements_ne_null]
  refine wp_bind (memory.wp_loadHead key ?_)
  simp only [getHtableValue, l.size_table, l.bucket_table]
  refine wp_findLoop room enough (memory.focus key) (fun missed => ?_) fun value found => ?_
  · exact ⟨none, [], by simp only [missed], ⟨rfl, rfl⟩, memory⟩
  · apply wp_mono (wp_strdup memory.holds)
    rintro p m' ⟨result, copy, copied, returned, h'⟩
    exact ⟨result, copy, by simp only [found, copied], returned, memory.positive,
      h'.perm (by grind)⟩

/-! Deletion. -/

/-- A node whose pair was freed: it stays allocated, and points nowhere. -/
def spent (granted : Nat) (chain : List Link) : List (Ptr × Cell) :=
  chain.map fun l => (l.address, .node granted ⟨0, 0, 0⟩)

theorem wp_deleteNode {fuel : Nat} {post : Unit → Ram → Prop} (room : 24 ≤ granted)
    {chain : List Link} (enough : chain.length < fuel)
    (holds : m.heap.Holds (chainBlocks granted chain ++ rest))
    (right : ∀ m', m'.supply = m.supply → m'.heap.Holds (spent granted chain ++ rest) →
      post () m') :
    wp (Mem.deleteNode fuel (headOf chain)) post m := by
  induction chain generalizing fuel rest m post with
  | nil =>
    obtain ⟨fuel, rfl⟩ : ∃ k, fuel = k + 1 := ⟨fuel - 1, by omega⟩
    exact wp_pure (right m rfl holds)
  | cons l chain ih =>
    obtain ⟨fuel, rfl⟩ : ∃ k, fuel = k + 1 := ⟨fuel - 1, by omega⟩
    rw [chainBlocks_cons, List.append_assoc] at holds
    rw [headOf_cons, Mem.deleteNode, if_neg (address_ne_null holds)]
    refine wp_bind (wp_kvPairFree_link room holds fun m₁ s₁ h₁ => ?_)
    refine wp_bind (wp_loadField .next (Field.reach_le _ room) h₁ List.mem_cons_self ?_)
    rw [List.length_cons] at enough
    refine wp_bind (ih (by omega) (h₁.perm List.perm_middle.symm) fun m₂ s₂ h₂ => ?_)
    refine wp_storeField .next 0 (Field.reach_le _ room) (h₂.perm List.perm_middle) fun m₃ s₃ h₃ => ?_
    exact right m₃ (by rw [s₃, s₂, s₁]) h₃

def removedFrom (key : CString) : List Link → List Link
  | [] => []
  | l :: chain => if keyMatches l.entry key then [l] else removedFrom key chain

/-- The deleting loop behind a node: the first match is unlinked and freed. -/
theorem wp_spliceLoop {key : CString} {fuel : Nat} {post : ErrorCode → Ram → Prop}
    (room : 24 ≤ granted) {last : Link} {chain : List Link} (enough : chain.length < fuel)
    (holds : m.heap.Holds (last.blocks granted (headOf chain) ++ (chainBlocks granted chain ++ rest)))
    (right : ∀ chain' m', m'.supply = m.supply →
      chain'.map Link.entry = Chain.remove key (chain.map Link.entry) →
      m'.heap.Holds (last.blocks granted (headOf chain') ++ (chainBlocks granted chain' ++
        (spent granted (removedFrom key chain) ++ rest))) → post .none m') :
    wp (Mem.spliceLoop key fuel last.address (headOf chain)) post m := by
  induction chain generalizing fuel rest m post last with
  | nil =>
    obtain ⟨fuel, rfl⟩ : ∃ k, fuel = k + 1 := ⟨fuel - 1, by omega⟩
    exact wp_pure (right [] m rfl rfl holds)
  | cons l chain ih =>
    obtain ⟨fuel, rfl⟩ : ∃ k, fuel = k + 1 := ⟨fuel - 1, by omega⟩
    have own : m.heap.Holds (l.blocks granted (headOf chain) ++ (chainBlocks granted chain ++
        (last.blocks granted (headOf (l :: chain)) ++ rest))) := by
      refine holds.perm ?_
      rw [chainBlocks_cons]
      grind
    rw [headOf_cons, Mem.spliceLoop, if_neg (address_ne_null own)]
    refine wp_bind (wp_matchesAt (Field.key.reach_le room) own ?_)
    have longer : 1 < fuel + 1 ∧ chain.length < fuel := by
      rw [List.length_cons] at enough
      omega
    by_cases hit : keyMatches l.entry key
    · rw [if_pos (decide_eq_true hit)]
      refine wp_bind (wp_loadNext room own ?_)
      refine wp_bind (wp_storeNext room holds fun m₁ s₁ h₁ => ?_)
      have mine : m₁.heap.Holds (l.blocks granted (headOf chain) ++ (chainBlocks granted chain ++
          (last.blocks granted (headOf chain) ++ rest))) := by
        refine h₁.perm ?_
        rw [chainBlocks_cons]
        grind
      refine wp_bind (wp_storeNext room mine fun m₂ s₂ h₂ => ?_)
      have alone : m₂.heap.Holds (chainBlocks granted [l] ++ (chainBlocks granted chain ++
          (last.blocks granted (headOf chain) ++ rest))) := by
        simpa using h₂
      refine wp_bind (wp_deleteNode room longer.1 alone fun m₃ s₃ h₃ => wp_pure ?_)
      rw [keyMatches_iff] at hit
      refine right chain m₃ (by rw [s₃, s₂, s₁]) ?_ ?_
      · rw [List.map_cons, Chain.remove_cons_hit _ hit]
      · have gone : removedFrom key (l :: chain) = [l] := by
          simp [removedFrom, keyMatches_iff, hit]
        rw [gone]
        exact h₃.perm (by grind)
    · rw [if_neg (by simpa using hit)]
      refine wp_bind (wp_loadNext room own ?_)
      refine ih longer.2 own fun chain' m' s' same h' => ?_
      rw [keyMatches_iff] at hit
      refine right (l :: chain') m' s' ?_ ?_
      · rw [List.map_cons, List.map_cons, same, Chain.remove_cons_miss _ hit]
      · have gone : removedFrom key (l :: chain) = removedFrom key chain := by
          simp [removedFrom, keyMatches_iff, hit]
        rw [gone, chainBlocks_cons, headOf_cons]
        refine h'.perm ?_
        rw [headOf_cons]
        grind

/-- What one deletion loses, next to what it does to the table. -/
def Htable.delLost (granted : Nat) (t : Htable) (key : CString) : List Cell :=
  if ∃ e ∈ t.bucket (hashFunction key t.size), keyMatches e key then [.node granted ⟨0, 0, 0⟩]
  else []

theorem spent_removedFrom (granted : Nat) (key : CString) (chain : List Link) :
    (spent granted (removedFrom key chain)).map Prod.snd =
      if ∃ e ∈ chain.map Link.entry, keyMatches e key then [.node granted ⟨0, 0, 0⟩] else [] := by
  induction chain with
  | nil => simp [removedFrom, spent]
  | cons l chain ih =>
    by_cases hit : keyMatches l.entry key
    · simp [removedFrom, spent, hit]
    · simpa [removedFrom, hit] using ih

theorem wp_delHtableKey {l : Layout} {key : CString} {fuel : Nat} (room : 24 ≤ granted)
    (memory : l.Holds granted frame m)
    (enough : (l.chain (hashFunction key l.chains.length)).length < fuel)
    (behind : ¬ l.table.HeadMatches key) :
    wp (Mem.delHtableKey fuel l.address key) (fun error m' =>
      ∃ (l' : Layout) (lost : List (Ptr × Cell)), error = .none ∧ m'.supply = m.supply ∧
        l'.table = l.table.remove key ∧ l'.address = l.address ∧
        lost.map Prod.snd = l.table.delLost granted key ∧ l'.Holds granted (lost ++ frame) m') m := by
  have focus := memory.focus key
  simp only [Htable.HeadMatches, Htable.remove, Htable.delLost, l.size_table,
    l.bucket_table] at behind ⊢
  refine wp_bind (memory.wp_loadTable ?_)
  dsimp only
  rw [if_neg memory.elements_ne_null]
  refine wp_bind (memory.wp_loadHead key ?_)
  cases whole : l.chain (hashFunction key l.chains.length) with
  | nil =>
    obtain ⟨fuel, rfl⟩ : ∃ k, fuel = k + 1 := ⟨fuel - 1, by omega⟩
    refine wp_pure ⟨l, [], rfl, rfl, ?_, rfl, by simp, memory⟩
    have self : l.setChain (hashFunction key l.chains.length) [] = l := by
      rw [← whole, l.setChain_self (memory.inside key)]
    have empty := l.table_setChain (hashFunction key l.chains.length) []
    rw [self] at empty
    simpa [Chain.remove] using empty
  | cons front chain =>
    have miss : ¬ keyMatches front.entry key := by
      simpa [whole, keyMatches_iff] using behind
    obtain ⟨fuel, rfl⟩ : ∃ k, fuel = k + 1 := ⟨fuel - 1, by omega⟩
    rw [whole, List.length_cons] at enough
    rw [whole, chainBlocks_cons, List.append_assoc] at focus
    rw [headOf_cons, Mem.spliceLoop, if_neg (PpsDht.address_ne_null focus)]
    refine wp_bind (wp_matchesAt (Field.key.reach_le room) focus ?_)
    rw [if_neg (by simpa using miss)]
    refine wp_bind (wp_loadNext room focus ?_)
    refine wp_spliceLoop room (by omega) focus fun chain' m' s' same h' => ?_
    refine ⟨l.setChain _ (front :: chain'), spent granted (removedFrom key chain), rfl, s', ?_, rfl,
      ?_, memory.setChain key ?_⟩
    · rw [l.table_setChain, List.map_cons, List.map_cons, same]
      rw [keyMatches_iff] at miss
      rw [Chain.remove_cons_miss _ miss]
    · rw [spent_removedFrom]
      simp [miss]
    · have kept : l.heads.set (hashFunction key l.chains.length) (headOf (front :: chain')) =
          l.heads := by
        rw [headOf_cons, ← headOf_cons front chain, ← whole]
        exact l.heads_set_self (memory.inside key)
      rw [kept, chainBlocks_cons]
      exact h'.perm (by grind)

/-- A match at the head of its chain: the splice writes through NULL. -/
theorem delHtableKey_fault {l : Layout} {key : CString} {fuel : Nat} (room : 24 ≤ granted)
    (memory : l.Holds granted frame m) (enough : 0 < fuel) (front : l.table.HeadMatches key) :
    Mem.delHtableKey fuel l.address key m = .fault := by
  obtain ⟨fuel, rfl⟩ : ∃ k, fuel = k + 1 := ⟨fuel - 1, by omega⟩
  have focus := memory.focus key
  obtain ⟨e, first, hit⟩ := front
  rw [l.size_table, l.bucket_table] at first
  refine bind_eq_of_wp (memory.wp_loadTable ?_)
  dsimp only
  rw [if_neg memory.elements_ne_null]
  refine bind_eq_of_wp (memory.wp_loadHead key ?_)
  cases whole : l.chain (hashFunction key l.chains.length) with
  | nil => simp [whole] at first
  | cons front chain =>
    rw [whole, chainBlocks_cons, List.append_assoc] at focus
    have hit : keyMatches front.entry key := by
      rw [keyMatches_iff]
      simp only [whole, List.map_cons, List.head?_cons, Option.mem_some_iff] at first
      rwa [first]
    rw [headOf_cons, Mem.spliceLoop, if_neg (PpsDht.address_ne_null focus)]
    refine bind_eq_of_wp (wp_matchesAt (Field.key.reach_le room) focus ?_)
    rw [if_pos (decide_eq_true hit)]
    refine bind_eq_of_wp (wp_loadNext room focus ?_)
    exact fault_bind (fault_bind load_null)

/-! Construction and destruction. -/

def Layout.new (address elements : Ptr) (size : Nat) : Layout :=
  ⟨address, elements, List.replicate size []⟩

@[simp] theorem Layout.table_new (address elements : Ptr) (size : Nat) :
    (Layout.new address elements size).table = Htable.empty size := by
  simp [Layout.new, Layout.table, Htable.empty]

theorem wp_constructHtable (granted : Nat) {size : Nat} (positive : 0 < size)
    (holds : m.heap.Holds blocks) :
    wp (Mem.constructHtable size) (fun p m' => ∃ result, constructHtable size m.supply =
        (result, m'.supply) ∧
      match result with
      | none => p = 0 ∧ m'.heap.Holds blocks
      | some t => ∃ l : Layout, l.address = p ∧ l.table = t ∧ l.Holds granted blocks m') m := by
  refine wp_bind (wp_calloc malloc _ holds (fun m₁ s₁ h₁ => ?_) fun table m₁ live s₁ h₁ => ?_)
  · rw [if_neg (by simp)]
    exact wp_pure ⟨none, by simp only [constructHtable, s₁], rfl, h₁⟩
  rw [if_pos live]
  refine wp_bind (wp_calloc malloc _ h₁ (fun m₂ s₂ h₂ => ?_) fun elements m₂ liveArray s₂ h₂ => ?_)
  · refine wp_bind (wp_store _ h₂ fun m₃ s₃ h₃ => ?_)
    rw [if_neg (by simp)]
    refine wp_bind (wp_free h₃ fun m₄ s₄ h₄ => wp_pure ⟨none, ?_, rfl, h₄⟩)
    simp only [constructHtable, s₁, s₂, s₃, s₄]
  · refine wp_bind (wp_store _ (h₂.perm (List.Perm.swap ..)) fun m₃ s₃ h₃ => ?_)
    rw [if_pos liveArray]
    refine wp_bind (wp_store _ h₃ fun m₄ s₄ h₄ => wp_pure ⟨some (Htable.empty size), ?_,
      .new table elements size, rfl, Layout.table_new .., ?_, ?_⟩)
    · simp only [constructHtable, s₁, s₂, s₃, s₄]
    · simpa [Layout.new] using positive
    · have none : (List.replicate size []).flatMap (chainBlocks granted) = [] :=
        List.flatMap_eq_nil_iff.mpr fun chain member => by rw [List.eq_of_mem_replicate member]; rfl
      simpa [Layout.new, Layout.blocks, Layout.heads, none] using h₄

/-- Whole chains are freed one after another; the array still points to their nodes. -/
theorem wp_deleteLoop {fuel : Nat} {post : Unit → Ram → Prop} (room : 24 ≤ granted)
    {table elements : Ptr} {size : Nat} {heads : List Ptr} (back : List (List Link)) (i : Nat)
    (same : heads.drop i = back.map headOf) (enough : ∀ chain ∈ back, chain.length < fuel)
    (holds : m.heap.Holds ((table, .table elements size) :: (elements, .buckets heads) ::
      (back.flatMap (chainBlocks granted) ++ rest)))
    (right : ∀ m', m'.supply = m.supply →
      m'.heap.Holds ((table, .table elements size) :: (elements, .buckets heads) ::
        (back.flatMap (spent granted) ++ rest)) → post () m') :
    wp (Mem.deleteLoop fuel table back.length i) post m := by
  induction back generalizing i rest m post with
  | nil => exact wp_pure (right m rfl holds)
  | cons chain back ih =>
    have here : heads[i]? = some (headOf chain) := by
      rw [← List.head?_drop, same]
      rfl
    have later : heads.drop (i + 1) = back.map headOf := by
      rw [← List.tail_drop, same]
      rfl
    refine wp_bind (wp_loadTable holds List.mem_cons_self ?_)
    refine wp_bind (wp_loadHead holds (List.mem_cons_of_mem _ List.mem_cons_self) here ?_)
    have own : m.heap.Holds (chainBlocks granted chain ++ ((table, .table elements size) ::
        (elements, .buckets heads) :: (back.flatMap (chainBlocks granted) ++ rest))) := by
      refine holds.perm ?_
      rw [List.flatMap_cons]
      grind
    refine wp_bind (wp_deleteNode room (enough chain List.mem_cons_self) own fun m₁ s₁ h₁ => ?_)
    have next : m₁.heap.Holds ((table, .table elements size) :: (elements, .buckets heads) ::
        (back.flatMap (chainBlocks granted) ++ (spent granted chain ++ rest))) := h₁.perm (by grind)
    refine ih (i + 1) later (fun chain member => enough chain (List.mem_cons_of_mem _ member)) next
      fun m₂ s₂ h₂ => right m₂ (s₂.trans s₁) (h₂.perm ?_)
    rw [List.flatMap_cons]
    grind

theorem wp_deleteHtableAndContent {l : Layout} {fuel : Nat} (room : 24 ≤ granted)
    (memory : l.Holds granted frame m) (enough : ∀ chain ∈ l.chains, chain.length < fuel) :
    wp (Mem.deleteHtableAndContent fuel l.address) (fun handle m' => handle = 0 ∧
      m'.supply = m.supply ∧
      m'.heap.Holds (l.chains.flatMap (spent granted) ++ frame)) m := by
  have all := memory.holds
  rw [Layout.blocks, List.cons_append, List.cons_append] at all
  refine wp_bind (wp_loadTable all List.mem_cons_self ?_)
  refine wp_bind (wp_deleteLoop room l.chains 0 rfl enough all fun m₁ s₁ h₁ => ?_)
  refine wp_bind (wp_loadTable h₁ List.mem_cons_self ?_)
  refine wp_bind (wp_free (h₁.perm (List.Perm.swap ..)) fun m₂ s₂ h₂ => ?_)
  refine wp_bind (wp_store _ h₂ fun m₃ s₃ h₃ => ?_)
  refine wp_bind (wp_free h₃ fun m₄ s₄ h₄ => wp_pure ⟨rfl, ?_, h₄⟩)
  rw [s₄, s₃, s₂, s₁]

/-! The lengths of chains. -/

def Htable.Within (t : Htable) (bound : Nat) : Prop := ∀ index, (t.bucket index).length ≤ bound

theorem Htable.within_empty (size : Nat) : (Htable.empty size).Within 0 := by
  intro index
  rw [bucket_empty, List.length_nil]

theorem Htable.Within.put {t : Htable} {bound : Nat} (within : t.Within bound)
    (positive : 0 < t.size) (key value : CString) : (t.put key value).Within (bound + 1) := by
  intro index
  have short := within index
  rw [t.bucket_put positive]
  split
  · have lengths : (Chain.put key value (t.bucket index)).length ≤ (t.bucket index).length + 1 := by
      rw [← List.length_map Chain.Entry.key]
      rcases Chain.put_keys key value (t.bucket index) with same | ⟨_, longer⟩
      · rw [same, List.length_map]
        omega
      · rw [longer, List.length_cons, List.length_map]
    omega
  · omega

theorem Htable.Within.remove {t : Htable} {bound : Nat} (within : t.Within bound)
    (positive : 0 < t.size) (key : CString) : (t.remove key).Within bound := by
  intro index
  rw [t.bucket_remove positive]
  split
  · exact Nat.le_trans (List.length_eraseP_le) (within index)
  · exact within index

theorem Layout.length_chain_le {l : Layout} {bound : Nat} (within : l.table.Within bound) (index : Nat) :
    (l.chain index).length ≤ bound := by
  have short := within index
  rwa [l.bucket_table, List.length_map] at short

theorem Layout.length_chain_lt {l : Layout} {bound fuel : Nat} (within : l.table.Within bound)
    (enough : bound < fuel) : ∀ chain ∈ l.chains, chain.length < fuel := by
  intro chain member
  obtain ⟨index, inside, rfl⟩ := List.mem_iff_getElem.mp member
  have short := l.length_chain_le within index
  simp only [Layout.chain, List.getD_eq_getElem?_getD, inside, getElem?_pos,
    Option.getD_some] at short
  omega

end PpsDht
