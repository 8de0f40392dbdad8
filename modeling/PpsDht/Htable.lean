import PpsDht.Basic
import PpsDht.Lib.Chain

/-! The hash table of `hashtable.c`. A bucket is the list of its nodes from the head
on; linking a node in front is consing. Keys are matched by `strncmp` bounded by the
length of the searched key, exactly as the source does. -/
namespace PpsDht

open CLib

abbrev KvPair := Chain.Entry CString CString

abbrev Bucket := List KvPair

structure Htable where
  elements : List Bucket
  deriving DecidableEq

namespace Htable

def size (t : Htable) : Nat := t.elements.length

def bucket (t : Htable) (index : Nat) : Bucket := t.elements.getD index []

def setBucket (t : Htable) (index : Nat) (b : Bucket) : Htable := ⟨t.elements.set index b⟩

def empty (size : Nat) : Htable := ⟨List.replicate size []⟩

@[simp] theorem size_empty (size : Nat) : (empty size).size = size := List.length_replicate

@[simp] theorem bucket_empty (size index : Nat) : (empty size).bucket index = [] := by
  simp only [bucket, empty, List.getD_eq_getElem?_getD, List.getElem?_replicate]
  split <;> rfl

@[simp] theorem size_setBucket (t : Htable) (index : Nat) (b : Bucket) :
    (t.setBucket index b).size = t.size := List.length_set

theorem bucket_setBucket_same (t : Htable) (index : Nat) (b : Bucket) (inside : index < t.size) :
    (t.setBucket index b).bucket index = b := by
  have bound : index < t.elements.length := inside
  simp [bucket, setBucket, bound]

theorem bucket_setBucket_other (t : Htable) {index other : Nat} (b : Bucket)
    (apart : other ≠ index) : (t.setBucket index b).bucket other = t.bucket other := by
  simp [bucket, setBucket, List.getElem?_set_ne (Ne.symm apart)]

end Htable

/-- The number of buckets of a server's table. -/
def htableSize : Nat := 256

def constructHtable (size : Nat) (a : Alloc) : Option Htable × Alloc :=
  match malloc a with
  | (false, a) => (none, a)
  | (true, a) =>
    match malloc a with
    | (false, a) => (none, a)
    | (true, a) => (some (Htable.empty size), a)

/-- A node whose key or value cannot be copied is released again. -/
def createNode (key value : CString) (a : Alloc) : Option KvPair × Alloc :=
  match malloc a with
  | (false, a) => (none, a)
  | (true, a) =>
    match strdup key a with
    | (none, a) => (none, a)
    | (some key, a) =>
      match strdup value a with
      | (none, a) => (none, a)
      | (some value, a) => (some ⟨key, value⟩, a)

def hashByte (hash : UInt64) (byte : UInt8) : UInt64 :=
  let hash := hash + byte.toUInt64
  let hash := hash + (hash <<< 10)
  hash ^^^ (hash >>> 6)

def hashFunction (key : CString) (size : Nat) : Nat :=
  if size = 0 then sizeMax
  else
    let hash := key.bytes.foldl hashByte 0
    let hash := hash + (hash <<< 3)
    let hash := hash ^^^ (hash >>> 11)
    let hash := hash + (hash <<< 15)
    hash.toNat % size

theorem hashFunction_lt (key : CString) {size : Nat} (positive : 0 < size) :
    hashFunction key size < size := by
  simp only [hashFunction, Nat.ne_of_gt positive, ↓reduceIte]
  exact Nat.mod_lt _ positive

/-- `strncmp(current->elem.key, key, strlen(key)) == 0` -/
def keyMatches (current : KvPair) (key : CString) : Prop :=
  strncmp key.strlen current.key.bytes key.bytes = 0

instance (current : KvPair) (key : CString) : Decidable (keyMatches current key) :=
  inferInstanceAs (Decidable (_ = _))

theorem keyMatches_iff (current : KvPair) (key : CString) :
    keyMatches current key ↔ key ≤ current.key := strncmp_eq_zero_iff key current.key

/-- The loop of `add_Htable_value` over a nonempty bucket. The outer `none` is a scan
that matched no node, the inner one a match whose new value could not be copied. -/
def updateLoop (key value : CString) (a : Alloc) : Bucket → Option (Option Bucket × Alloc)
  | [] => none
  | current :: next =>
    if keyMatches current key then
      match strdup value a with
      | (none, a) => some (none, a)
      | (some newValue, a) => some (some ({ current with value := newValue } :: next), a)
    else (updateLoop key value a next).map fun (b, a) => (b.map (current :: ·), a)

def addHtableValue (t : Htable) (key value : CString) (a : Alloc) : ErrorCode × Htable × Alloc :=
  let index := hashFunction key t.size
  match t.bucket index with
  | [] =>
    match createNode key value a with
    | (none, a) => (.nomem, t, a)
    | (some node, a) => (.none, t.setBucket index [node], a)
  | head :: next =>
    match updateLoop key value a (head :: next) with
    | some (none, a) => (.nomem, t, a)
    | some (some updated, a) => (.none, t.setBucket index updated, a)
    | none =>
      match createNode key value a with
      | (none, a) => (.nomem, t, a)
      | (some node, a) => (.none, t.setBucket index (node :: head :: next), a)

def findLoop (key : CString) : Bucket → Option CString
  | [] => none
  | current :: next =>
    if keyMatches current key then some current.value else findLoop key next

/-- The result is a copy, so it is missing also when the copy fails. -/
def getHtableValue (t : Htable) (key : CString) (a : Alloc) : Option CString × Alloc :=
  match findLoop key (t.bucket (hashFunction key t.size)) with
  | none => (none, a)
  | some value => strdup value a

/-! Each operation in terms of the chain of the key's bucket. -/

theorem findLoop_eq (key : CString) (b : Bucket) : findLoop key b = Chain.lookup key b := by
  induction b with
  | nil => rfl
  | cons current next ih => simp only [findLoop, Chain.lookup, keyMatches_iff, ih]

theorem updateLoop_eq (key value : CString) (a : Alloc) (b : Bucket) :
    updateLoop key value a b = (Chain.update key value b).map fun updated =>
      match strdup value a with
      | (none, a) => (none, a)
      | (some _, a) => (some updated, a) := by
  induction b with
  | nil => rfl
  | cons current next ih =>
    obtain ⟨rest, copied | failed⟩ := strdup_cases value a
    · by_cases found : key ≤ current.key <;>
        simp [updateLoop, Chain.update, keyMatches_iff, found, ih, copied, Function.comp_def]
    · by_cases found : key ≤ current.key <;>
        simp [updateLoop, Chain.update, keyMatches_iff, found, ih, failed, Function.comp_def]

theorem createNode_cases (key value : CString) (a : Alloc) :
    ∃ rest, createNode key value a = (some ⟨key, value⟩, rest) ∨
      createNode key value a = (none, rest) := by
  unfold createNode
  rcases malloc a with ⟨ok, a⟩
  cases ok
  · exact ⟨a, .inr rfl⟩
  obtain ⟨a', copied | failed⟩ := strdup_cases key a
  · obtain ⟨rest, copiedValue | failedValue⟩ := strdup_cases value a'
    · exact ⟨rest, .inl (by simp only [copied, copiedValue])⟩
    · exact ⟨rest, .inr (by simp only [copied, failedValue])⟩
  · exact ⟨a', .inr (by simp only [failed])⟩

namespace Htable

def put (t : Htable) (key value : CString) : Htable :=
  t.setBucket (hashFunction key t.size) (Chain.put key value (t.bucket (hashFunction key t.size)))

def lookup (t : Htable) (key : CString) : Option CString :=
  Chain.lookup key (t.bucket (hashFunction key t.size))

theorem bucket_rewrite (t : Htable) (positive : 0 < t.size) (key : CString) (f : Bucket → Bucket)
    (index : Nat) :
    (t.setBucket (hashFunction key t.size) (f (t.bucket (hashFunction key t.size)))).bucket index =
      if index = hashFunction key t.size then f (t.bucket index) else t.bucket index := by
  by_cases same : index = hashFunction key t.size
  · subst same
    rw [if_pos rfl, bucket_setBucket_same _ _ _ (hashFunction_lt key positive)]
  · rw [if_neg same, bucket_setBucket_other t _ same]

@[simp] theorem size_put (t : Htable) (key value : CString) : (t.put key value).size = t.size :=
  size_setBucket ..

end Htable

/-- Everything `add_Htable_value` can do: insert or overwrite, or fail and change nothing. -/
theorem addHtableValue_cases (t : Htable) (key value : CString) (a : Alloc) :
    ∃ rest, addHtableValue t key value a = (.none, t.put key value, rest) ∨
      addHtableValue t key value a = (.nomem, t, rest) := by
  cases whole : t.bucket (hashFunction key t.size) with
  | nil =>
    have put : t.put key value = t.setBucket (hashFunction key t.size) [⟨key, value⟩] := by
      rw [Htable.put, whole, Chain.put_of_miss key value [] (by simp)]
    obtain ⟨rest, created | failed⟩ := createNode_cases key value a
    · exact ⟨rest, .inl (by simp only [addHtableValue, whole, created, put])⟩
    · exact ⟨rest, .inr (by simp only [addHtableValue, whole, failed])⟩
  | cons head next =>
    cases found : Chain.update key value (head :: next) with
    | some updated =>
      have put : t.put key value = t.setBucket (hashFunction key t.size) updated := by
        rw [Htable.put, whole, Chain.put_of_update found]
      obtain ⟨rest, copied | failed⟩ := strdup_cases value a
      · refine ⟨rest, .inl ?_⟩
        simp only [addHtableValue, whole, updateLoop_eq, found, copied, Option.map_some, put]
      · refine ⟨rest, .inr ?_⟩
        simp only [addHtableValue, whole, updateLoop_eq, found, failed, Option.map_some]
    | none =>
      have miss := (Chain.update_eq_none_iff key value _).mp found
      have put : t.put key value =
          t.setBucket (hashFunction key t.size) (⟨key, value⟩ :: head :: next) := by
        rw [Htable.put, whole, Chain.put_of_miss key value _ miss]
      obtain ⟨rest, created | failed⟩ := createNode_cases key value a
      · refine ⟨rest, .inl ?_⟩
        simp only [addHtableValue, whole, updateLoop_eq, found, created, Option.map_none, put]
      · refine ⟨rest, .inr ?_⟩
        simp only [addHtableValue, whole, updateLoop_eq, found, failed, Option.map_none]

@[simp] theorem addHtableValue_nil (t : Htable) (key value : CString) :
    addHtableValue t key value [] = (.none, t.put key value, []) := by
  have fresh : createNode key value [] = (some ⟨key, value⟩, []) := rfl
  cases whole : t.bucket (hashFunction key t.size) with
  | nil => simp [addHtableValue, Htable.put, whole, fresh, Chain.put, Chain.update]
  | cons head next =>
    cases found : Chain.update key value (head :: next) <;>
      simp [addHtableValue, Htable.put, whole, updateLoop_eq, found, Chain.put, fresh]

@[simp] theorem getHtableValue_nil (t : Htable) (key : CString) :
    getHtableValue t key [] = (t.lookup key, []) := by
  simp only [getHtableValue, findLoop_eq, Htable.lookup]
  cases Chain.lookup key (t.bucket (hashFunction key t.size)) <;> rfl

end PpsDht
