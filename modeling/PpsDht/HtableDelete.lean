import PpsDht.HtableMap
import PpsDht.KvList
import Mathlib.Data.List.Nodup

/-! Deletion: `del_Htable_key` of `hashtable.c`, and what insertions and deletions
keep of the table. The splice goes through the node before the deleted one, which does
not exist at the head of a chain. -/
namespace PpsDht

open CLib Loop

/-- The loop of `del_Htable_key` after the nodes `passed`, the last of which is `last`.
At the head `last` is NULL, and the splice writes through it. -/
def deleteLoop (key : CString) (passed : Bucket) : Bucket → Outcome Bucket
  | [] => .done passed
  | current :: next =>
    if keyMatches current key then
      match passed.getLast? with
      | none => .fault
      | some _ => .done (passed ++ next)
    else deleteLoop key (passed ++ [current]) next

def delHtableKey (t : Htable) (key : CString) : Outcome (ErrorCode × Htable) :=
  let index := hashFunction key t.size
  (deleteLoop key [] (t.bucket index)).bind fun chain => .done (.none, t.setBucket index chain)

/-- Behind the head the first match is taken out. -/
theorem deleteLoop_behind (key : CString) (passed chain : Bucket) (behind : passed ≠ []) :
    deleteLoop key passed chain = .done (passed ++ Chain.remove key chain) := by
  induction chain generalizing passed with
  | nil => simp [deleteLoop, Chain.remove]
  | cons current next ih =>
    by_cases found : key ≤ current.key
    · have last : passed.getLast? = some (passed.getLast behind) :=
        List.getLast?_eq_some_getLast behind
      rw [Chain.remove_cons_hit next found]
      simp only [deleteLoop, keyMatches_iff, found, ↓reduceIte, last]
    · have further := ih (passed ++ [current]) (by simp)
      rw [Chain.remove_cons_miss next found]
      simp only [deleteLoop, keyMatches_iff, found, ↓reduceIte, further, List.append_assoc,
        List.singleton_append]

namespace Htable

def remove (t : Htable) (key : CString) : Htable :=
  t.setBucket (hashFunction key t.size)
    (Chain.remove key (t.bucket (hashFunction key t.size)))

def HeadMatches (t : Htable) (key : CString) : Prop :=
  ∃ head ∈ (t.bucket (hashFunction key t.size)).head?, key ≤ head.key

@[simp] theorem size_remove (t : Htable) (key : CString) : (t.remove key).size = t.size :=
  size_setBucket ..

end Htable

/-- Everything `del_Htable_key` can do: write through NULL, or take out the first match. -/
theorem delHtableKey_cases (t : Htable) (key : CString) :
    t.HeadMatches key ∧ delHtableKey t key = .fault ∨
      ¬ t.HeadMatches key ∧ delHtableKey t key = .done (.none, t.remove key) := by
  cases whole : t.bucket (hashFunction key t.size) with
  | nil =>
    refine .inr ⟨by simp [Htable.HeadMatches, whole], ?_⟩
    simp [delHtableKey, Htable.remove, whole, deleteLoop, Outcome.bind, Chain.remove]
  | cons head next =>
    by_cases found : key ≤ head.key
    · refine .inl ⟨⟨head, by simp [whole], found⟩, ?_⟩
      simp [delHtableKey, whole, deleteLoop, keyMatches_iff, found, Outcome.bind]
    · refine .inr ⟨by simp [Htable.HeadMatches, whole, found], ?_⟩
      have further := deleteLoop_behind key [head] next (by simp)
      simp only [delHtableKey, Htable.remove, whole, Chain.remove_cons_miss next found, deleteLoop,
        keyMatches_iff, found, ↓reduceIte, List.nil_append, further, List.singleton_append,
        Outcome.bind]

/-! The representation invariant. -/

namespace Htable

/-- No key is a prefix of a key further down its chain, itself included. -/
def Ordered (t : Htable) : Prop := ∀ index, Chain.Ordered (t.bucket index)

structure WellFormed (t : Htable) : Prop where
  positive : 0 < t.size
  placed : t.Placed
  ordered : t.Ordered

theorem wellFormed_empty {size : Nat} (positive : 0 < size) : (empty size).WellFormed where
  positive := by rwa [size_empty]
  placed := placed_empty size
  ordered index := by
    rw [bucket_empty]
    exact List.Pairwise.nil

theorem WellFormed.put {t : Htable} (wellFormed : t.WellFormed) (key value : CString) :
    (t.put key value).WellFormed where
  positive := by
    rw [size_put]
    exact wellFormed.positive
  placed := wellFormed.placed.put wellFormed.positive key value
  ordered index := by
    rw [bucket_put t wellFormed.positive]
    split
    · exact (wellFormed.ordered index).put key value
    · exact wellFormed.ordered index

theorem bucket_remove (t : Htable) (positive : 0 < t.size) (key : CString) (index : Nat) :
    (t.remove key).bucket index =
      if index = hashFunction key t.size then Chain.remove key (t.bucket index)
      else t.bucket index := bucket_rewrite t positive key (Chain.remove key) index

theorem mem_of_mem_bucket_remove {t : Htable} (positive : 0 < t.size) {key : CString} {index : Nat}
    {e : KvPair} (member : e ∈ (t.remove key).bucket index) : e ∈ t.bucket index := by
  rw [bucket_remove t positive] at member
  split at member
  · exact Chain.mem_of_mem_remove member
  · exact member

theorem WellFormed.remove {t : Htable} (wellFormed : t.WellFormed) (key : CString) :
    (t.remove key).WellFormed where
  positive := by
    rw [size_remove]
    exact wellFormed.positive
  placed index e member := by
    rw [size_remove]
    exact wellFormed.placed index e (mem_of_mem_bucket_remove wellFormed.positive member)
  ordered index := by
    rw [bucket_remove t wellFormed.positive]
    split
    · exact (wellFormed.ordered index).remove key
    · exact wellFormed.ordered index

/-- A key has one place in its chain, and its chain is that of its hash. -/
theorem WellFormed.nodup {t : Htable} (wellFormed : t.WellFormed) :
    (t.content.map Chain.Entry.key).Nodup := by
  have bucket {index : Nat} (inside : index < t.elements.length) :
      t.bucket index = t.elements[index] := by simp [Htable.bucket, inside]
  rw [content, List.map_flatten, List.nodup_flatten]
  constructor
  · intro keys member
    obtain ⟨chain, inside, rfl⟩ := List.mem_map.mp member
    obtain ⟨index, bound, rfl⟩ := List.mem_iff_getElem.mp inside
    exact (bucket bound ▸ wellFormed.ordered index).nodup_keys
  · rw [List.pairwise_map, List.pairwise_iff_getElem]
    intro first second bound bound' before key member member'
    obtain ⟨e, here, rfl⟩ := List.mem_map.mp member
    obtain ⟨e', there, same⟩ := List.mem_map.mp member'
    have hash := wellFormed.placed first e (bucket bound ▸ here)
    have hash' := wellFormed.placed second e' (bucket bound' ▸ there)
    rw [same, hash] at hash'
    omega

end Htable

/-! Runs of calls that change a table. -/

inductive Change where
  | add (key value : CString)
  | del (key : CString)

def Change.apply (t : Htable) (a : Alloc) : Change → Outcome (Htable × Alloc)
  | .add key value =>
    match addHtableValue t key value a with
    | (_, t, a) => .done (t, a)
  | .del key => (delHtableKey t key).bind fun (_, t) => .done (t, a)

def runChanges (t : Htable) (a : Alloc) : List Change → Outcome (Htable × Alloc)
  | [] => .done (t, a)
  | change :: rest => (change.apply t a).bind fun (t, a) => runChanges t a rest

theorem Change.apply_cases {t t' : Htable} {a rest : Alloc} {change : Change}
    (applied : change.apply t a = .done (t', rest)) :
    t' = t ∨ (∃ key value, t' = t.put key value) ∨ ∃ key, t' = t.remove key := by
  cases change with
  | add key value =>
    obtain ⟨left, added | failed⟩ := addHtableValue_cases t key value a
    · simp only [Change.apply, added, Outcome.done.injEq, Prod.mk.injEq] at applied
      exact .inr (.inl ⟨key, value, applied.1.symm⟩)
    · simp only [Change.apply, failed, Outcome.done.injEq, Prod.mk.injEq] at applied
      exact .inl applied.1.symm
  | del key =>
    rcases delHtableKey_cases t key with ⟨_, fault⟩ | ⟨_, deleted⟩
    · simp [Change.apply, fault, Outcome.bind] at applied
    · simp only [Change.apply, deleted, Outcome.bind, Outcome.done.injEq, Prod.mk.injEq] at applied
      exact .inr (.inr ⟨key, applied.1.symm⟩)

theorem Change.apply_wellFormed {t t' : Htable} {a rest : Alloc} {change : Change}
    (wellFormed : t.WellFormed) (applied : change.apply t a = .done (t', rest)) :
    t'.WellFormed ∧ t'.size = t.size := by
  obtain rfl | ⟨key, value, rfl⟩ | ⟨key, rfl⟩ := Change.apply_cases applied
  · exact ⟨wellFormed, rfl⟩
  · exact ⟨wellFormed.put key value, t.size_put key value⟩
  · exact ⟨wellFormed.remove key, t.size_remove key⟩

theorem runChanges_wellFormed {t t' : Htable} {a rest : Alloc} {changes : List Change}
    (wellFormed : t.WellFormed) (ran : runChanges t a changes = .done (t', rest)) :
    t'.WellFormed ∧ t'.size = t.size := by
  induction changes generalizing t a with
  | nil =>
    simp only [runChanges, Outcome.done.injEq, Prod.mk.injEq] at ran
    exact ran.1 ▸ ⟨wellFormed, rfl⟩
  | cons change changes ih =>
    obtain ⟨⟨next, left⟩, applied, later⟩ := Outcome.bind_eq_done_iff.mp ran
    obtain ⟨kept, size⟩ := Change.apply_wellFormed wellFormed applied
    obtain ⟨last, size'⟩ := ih kept later
    exact ⟨last, size'.trans size⟩

/-- The table can be built by insertions, some of them failing, and deletions. -/
def Reachable (size : Nat) (t : Htable) : Prop :=
  ∃ a changes rest, runChanges (Htable.empty size) a changes = .done (t, rest)

theorem Reachable.wellFormed {size : Nat} {t : Htable} (positive : 0 < size)
    (reachable : Reachable size t) : t.WellFormed ∧ t.size = size := by
  obtain ⟨a, changes, rest, ran⟩ := reachable
  obtain ⟨wellFormed, same⟩ := runChanges_wellFormed (Htable.wellFormed_empty positive) ran
  exact ⟨wellFormed, same.trans (Htable.size_empty size)⟩

/-- Every key is in the bucket of its hash, no key is a prefix of one further down its
chain, and no key is stored twice. -/
theorem reachable_invariant (size : Nat) (positive : 0 < size) (t : Htable)
    (reachable : Reachable size t) :
    (∀ index, ∀ e ∈ t.bucket index, hashFunction e.key size = index) ∧
    (∀ index, (t.bucket index).Pairwise fun first later => ¬ first.key ≤ later.key) ∧
    (t.content.map Chain.Entry.key).Nodup := by
  obtain ⟨wellFormed, rfl⟩ := reachable.wellFormed positive
  exact ⟨wellFormed.placed, wellFormed.ordered, wellFormed.nodup⟩

def chained : Htable :=
  ((Htable.empty 1).put (.ofMemory [98]) (.ofMemory [49])).put (.ofMemory [97]) (.ofMemory [50])

theorem reachable_chained : Reachable 1 chained :=
  ⟨[false], [.add (.ofMemory [99]) .empty, .add (.ofMemory [98]) (.ofMemory [49]),
    .add (.ofMemory [97]) (.ofMemory [50])], [], by decide +kernel⟩

theorem reachable_invariant_chained :
    (chained.content.map Chain.Entry.key).Nodup :=
  (reachable_invariant 1 (by decide) chained reachable_chained).2.2

/-! Insertion when memory runs out. -/

/-- A failed insertion changes no chain; after a successful one the key is read back
whenever its value can be copied. -/
theorem add_atomic (size : Nat) (positive : 0 < size) (t : Htable) (reachable : Reachable size t)
    (key value : CString) (a : Alloc) :
    ∃ error t' rest, addHtableValue t key value a = (error, t', rest) ∧
      (error = .none ∧
          (∀ b left, malloc b = (true, left) → getHtableValue t' key b = (some value, left)) ∨
        error = .nomem ∧ t'.elements = t.elements) := by
  obtain ⟨_, same⟩ := reachable.wellFormed positive
  obtain ⟨rest, added | failed⟩ := addHtableValue_cases t key value a
  · refine ⟨_, _, _, added, .inl ⟨rfl, fun b left copied => ?_⟩⟩
    have found := Htable.lookup_put_self (same ▸ positive) key value
    rw [Htable.lookup] at found
    simp only [getHtableValue, findLoop_eq, found, strdup, copied]
  · exact ⟨_, _, _, failed, .inr ⟨rfl, rfl⟩⟩

theorem add_atomic_chained :
    ∃ error t' rest, addHtableValue chained (.ofMemory [97]) .empty [false] = (error, t', rest) ∧
      t'.elements = chained.elements := by
  obtain ⟨error, t', rest, added, ⟨none, _⟩ | ⟨_, same⟩⟩ :=
    add_atomic 1 (by decide) chained reachable_chained (.ofMemory [97]) .empty [false]
  · have failed : (addHtableValue chained (.ofMemory [97]) .empty [false]).1 = .nomem := by
      decide +kernel
    rw [added, none] at failed
    contradiction
  · exact ⟨error, t', rest, added, same⟩

/-! Deletion of one binding. -/

/-- The call returns, no node holds the key afterwards, and all other nodes are in place. -/
def DeletesExactly (t : Htable) (key : CString) : Prop :=
  ∃ t', delHtableKey t key = .done (.none, t') ∧
    (∀ index, ∀ e ∈ t'.bucket index, e.key ≠ key) ∧
    ∀ index, (t'.bucket index).filter (fun e => decide (e.key ≠ key)) =
      (t.bucket index).filter fun e => decide (e.key ≠ key)

theorem Htable.unshadowed_iff (t : Htable) (key : CString) :
    t.Unshadowed key ↔ ∀ e ∈ t.bucket (hashFunction key t.size), ¬ key < e.key := by
  refine forall₂_congr fun e _ => ?_
  rw [lt_iff_le_and_ne, not_and_not_right]
  exact ⟨fun same above => (same above).symm, fun same above => (same above).symm⟩

/-- Taking out the first match leaves all nodes but those of the key, if nothing else of
the chain matches. -/
theorem Htable.WellFormed.bucket_remove_eq_filter {t : Htable} (wellFormed : t.WellFormed)
    (positive : 0 < t.size) {key : CString} (clear : t.Unshadowed key) (index : Nat) :
    (t.remove key).bucket index = (t.bucket index).filter fun e => decide (e.key ≠ key) := by
  rw [t.bucket_remove positive]
  split
  next own =>
    subst own
    exact (Chain.remove_eq_filter_iff (wellFormed.ordered _) key).mpr clear
  next other =>
    refine (List.filter_eq_self.mpr fun e member => decide_eq_true ?_).symm
    rintro rfl
    exact other (wellFormed.placed index e member).symm

/-- Deleting works exactly for the keys that are not the first of their chain and have
no proper extension in it. -/
theorem deletesExactly_iff (size : Nat) (positive : 0 < size) (t : Htable)
    (reachable : Reachable size t) (key : CString) :
    DeletesExactly t key ↔
      (∀ head ∈ (t.bucket (hashFunction key size)).head?, head.key ≠ key) ∧
        ∀ e ∈ t.bucket (hashFunction key size), ¬ key < e.key := by
  obtain ⟨wellFormed, rfl⟩ := reachable.wellFormed positive
  rw [← t.unshadowed_iff]
  constructor
  · rintro ⟨t', deleted, gone, kept⟩
    rcases delHtableKey_cases t key with ⟨_, fault⟩ | ⟨miss, removed⟩
    · rw [fault] at deleted
      contradiction
    · rw [removed] at deleted
      simp only [Outcome.done.injEq, Prod.mk.injEq, true_and] at deleted
      subst deleted
      have here := kept (hashFunction key t.size)
      have absent := gone (hashFunction key t.size)
      rw [t.bucket_remove positive, if_pos rfl] at here absent
      rw [List.filter_eq_self.mpr (by simpa using absent)] at here
      refine ⟨fun head first same => miss ⟨head, first, same.ge⟩, ?_⟩
      exact (Chain.remove_eq_filter_iff (wellFormed.ordered _) key).mp here
  · rintro ⟨notFirst, clear⟩
    have miss : ¬ t.HeadMatches key := by
      rintro ⟨head, first, above⟩
      exact notFirst head first (clear head (List.mem_of_mem_head? first) above)
    rcases delHtableKey_cases t key with ⟨found, _⟩ | ⟨_, removed⟩
    · exact absurd found miss
    · have left := wellFormed.bucket_remove_eq_filter positive clear
      refine ⟨t.remove key, removed, fun index e member => ?_, fun index => ?_⟩
      · rw [left] at member
        simpa using List.of_mem_filter member
      · rw [left, List.filter_filter]
        simp

theorem deletesExactly_second : DeletesExactly chained (.ofMemory [98]) :=
  (deletesExactly_iff 1 (by decide) chained reachable_chained (.ofMemory [98])).mpr
    (by decide +kernel)

/-- Deleting the only node of a table writes through a null pointer. -/
theorem deletes_only_node_through_null :
    ¬ ∀ size, 0 < size → ∀ t, Reachable size t → ∀ key, DeletesExactly t key := by
  intro exactly
  have reachable : Reachable 1 ((Htable.empty 1).put (.ofMemory [97]) .empty) :=
    ⟨[], [.add (.ofMemory [97]) .empty], [], by decide +kernel⟩
  obtain ⟨t', deleted, _⟩ := exactly 1 (by decide) _ reachable (.ofMemory [97])
  have fault : delHtableKey ((Htable.empty 1).put (.ofMemory [97]) .empty) (.ofMemory [97]) =
      .fault := by decide +kernel
  rw [fault] at deleted
  contradiction

end PpsDht
