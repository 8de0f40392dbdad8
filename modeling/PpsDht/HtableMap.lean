import PpsDht.Htable
import Mathlib.Data.Set.Insert

/-! The table against the finite map it stands for. Lookups and updates are by
prefix, so the two agree exactly while no searched key is a proper prefix of a key
stored in its bucket. -/
namespace PpsDht

open CLib

namespace Htable

/-- No key of the bucket is a proper extension of `key`. -/
def Unshadowed (t : Htable) (key : CString) : Prop :=
  Chain.Unshadowed key (t.bucket (hashFunction key t.size))

def binding (t : Htable) (key : CString) : Option CString :=
  Chain.binding key (t.bucket (hashFunction key t.size))

def Placed (t : Htable) : Prop :=
  ∀ index, ∀ e ∈ t.bucket index, hashFunction e.key t.size = index

def KeysIn (t : Htable) (keys : Set CString) : Prop :=
  ∀ index, ∀ e ∈ t.bucket index, e.key ∈ keys

@[simp] theorem binding_empty (size : Nat) (key : CString) : (empty size).binding key = none := by
  simp [binding, Chain.binding]

theorem placed_empty (size : Nat) : (empty size).Placed := by
  intro index e member
  simp at member

theorem keysIn_empty (size : Nat) (keys : Set CString) : (empty size).KeysIn keys := by
  intro index e member
  simp at member

theorem lookup_eq_binding {t : Htable} {key : CString} (clear : t.Unshadowed key) :
    t.lookup key = t.binding key := Chain.lookup_eq_binding clear

theorem binding_of_lookup {t : Htable} (placed : t.Placed) {key value : CString}
    (found : t.lookup key = some value) : ∃ k, t.binding k = some value := by
  obtain ⟨e, inside, _, bound⟩ := Chain.binding_of_lookup found
  exact ⟨e.key, by rwa [binding, placed _ e inside]⟩

theorem lookup_put_self {t : Htable} (positive : 0 < t.size) (key value : CString) :
    (t.put key value).lookup key = some value := by
  rw [lookup, size_put, put, bucket_setBucket_same _ _ _ (hashFunction_lt key positive)]
  exact Chain.lookup_put_self key value _

theorem bucket_put (t : Htable) (positive : 0 < t.size) (key value : CString) (index : Nat) :
    (t.put key value).bucket index =
      if index = hashFunction key t.size then Chain.put key value (t.bucket index)
      else t.bucket index := bucket_rewrite t positive key (Chain.put key value) index

theorem binding_put {t : Htable} (positive : 0 < t.size) {key : CString}
    (clear : t.Unshadowed key) (value other : CString) :
    (t.put key value).binding other = if other = key then some value else t.binding other := by
  rw [binding, size_put, bucket_put t positive]
  by_cases sameBucket : hashFunction other t.size = hashFunction key t.size
  · rw [if_pos sameBucket, sameBucket, Chain.binding_put clear, binding, sameBucket]
  · have apart : other ≠ key := fun same => sameBucket (same ▸ rfl)
    rw [if_neg sameBucket, if_neg apart, binding]

theorem mem_bucket_put {t : Htable} (positive : 0 < t.size) {key value : CString}
    {index : Nat} {e : KvPair} (member : e ∈ (t.put key value).bucket index) :
    e.key = key ∧ index = hashFunction key t.size ∨ ∃ old ∈ t.bucket index, old.key = e.key := by
  rw [bucket_put t positive] at member
  by_cases same : index = hashFunction key t.size
  · rw [if_pos same] at member
    have inKeys := List.mem_map_of_mem (f := Chain.Entry.key) member
    rcases Chain.mem_keys_put key e.key value _ inKeys with fresh | old
    · exact .inl ⟨fresh, same⟩
    · exact .inr (List.mem_map.mp old)
  · rw [if_neg same] at member
    exact .inr ⟨e, member, rfl⟩

theorem Placed.put {t : Htable} (placed : t.Placed) (positive : 0 < t.size)
    (key value : CString) : (t.put key value).Placed := by
  intro index e member
  rw [size_put]
  rcases mem_bucket_put positive member with ⟨same, here⟩ | ⟨old, inside, same⟩
  · rw [same, here]
  · rw [← same]
    exact placed index old inside

theorem KeysIn.mono {t : Htable} {keys others : Set CString} (known : t.KeysIn keys)
    (more : keys ⊆ others) : t.KeysIn others :=
  fun index e inside => more (known index e inside)

theorem KeysIn.put {t : Htable} {keys : Set CString} (known : t.KeysIn keys)
    (positive : 0 < t.size) {key : CString} (value : CString) (member : key ∈ keys) :
    (t.put key value).KeysIn keys := by
  intro index e inside
  rcases mem_bucket_put positive inside with ⟨same, _⟩ | ⟨old, here, same⟩
  · exact same ▸ member
  · exact same ▸ known index old here

theorem unshadowed_of_keysIn {t : Htable} {keys : Set CString} (placed : t.Placed)
    (known : t.KeysIn keys) {key : CString}
    (free : ∀ k ∈ keys, key < k → hashFunction key t.size ≠ hashFunction k t.size) :
    t.Unshadowed key := by
  intro e inside above
  by_contra apart
  have strict : key < e.key := lt_of_le_of_ne above (Ne.symm apart)
  exact free e.key (known _ e inside) strict (placed _ e inside).symm

end Htable

/-- A call on one table, with all its allocations succeeding. -/
inductive Call where
  | add (key value : CString)
  | get (key : CString)

def Call.key : Call → CString
  | .add key _ => key
  | .get key => key

def Call.next (t : Htable) : Call → Htable
  | .add key value => (addHtableValue t key value []).2.1
  | .get _ => t

/-- The results of the `get` calls, in order. -/
def runCalls (t : Htable) : List Call → List (Option CString)
  | [] => []
  | .add key value :: rest => runCalls (Call.next t (.add key value)) rest
  | .get key :: rest => (getHtableValue t key []).1 :: runCalls t rest

abbrev FiniteMap := CString → Option CString

def FiniteMap.empty : FiniteMap := fun _ => none

def specCalls (m : FiniteMap) : List Call → List (Option CString)
  | [] => []
  | .add key value :: rest => specCalls (Function.update m key (some value)) rest
  | .get key :: rest => m key :: specCalls m rest

def UnshadowedRun (t : Htable) : List Call → Prop
  | [] => True
  | call :: rest => t.Unshadowed call.key ∧ UnshadowedRun (call.next t) rest

/-- The simulation: the invariant is that both sides bind every key alike. -/
theorem runCalls_eq_specCalls (t : Htable) (m : FiniteMap) (calls : List Call)
    (positive : 0 < t.size) (represents : ∀ key, t.binding key = m key)
    (clear : UnshadowedRun t calls) : runCalls t calls = specCalls m calls := by
  induction calls generalizing t m with
  | nil => rfl
  | cons call rest ih =>
    obtain ⟨here, later⟩ := clear
    cases call with
    | get key =>
      have same : t.lookup key = m key := (Htable.lookup_eq_binding here).trans (represents key)
      simp only [runCalls, specCalls, getHtableValue_nil, same]
      rw [ih t m positive represents later]
    | add key value =>
      have next : Call.next t (.add key value) = t.put key value := by simp [Call.next]
      have here : t.Unshadowed key := here
      rw [next] at later
      simp only [runCalls, specCalls, next]
      refine ih _ _ (by simpa using positive) (fun other => ?_) later
      rw [Htable.binding_put positive here, represents, Function.update_apply]

theorem unshadowedRun_of_keys (t : Htable) (keys : Set CString) (calls : List Call)
    (positive : 0 < t.size) (placed : t.Placed) (known : t.KeysIn keys)
    (free : ∀ k ∈ keys, ∀ k' ∈ keys, k < k' → hashFunction k t.size ≠ hashFunction k' t.size)
    (within : ∀ call ∈ calls, call.key ∈ keys) : UnshadowedRun t calls := by
  induction calls generalizing t with
  | nil => trivial
  | cons call rest ih =>
    have member := within call List.mem_cons_self
    refine ⟨Htable.unshadowed_of_keysIn placed known (free _ member), ?_⟩
    have tail : ∀ call ∈ rest, call.key ∈ keys :=
      fun c inside => within c (List.mem_cons_of_mem _ inside)
    cases call with
    | get key => exact ih t positive placed known free tail
    | add key value =>
      have next : Call.next t (.add key value) = t.put key value := by simp [Call.next]
      rw [next]
      exact ih _ (by simpa using positive) (placed.put positive key value)
        (known.put positive value member) (by simpa using free) tail

/-- The table answers like the finite map in every run whose searched keys are
unshadowed. For a set of keys, it does so in all runs over them if and only if no key
is a proper prefix of another one that falls into the same bucket. -/
theorem htable_refines_finite_map (size : Nat) (positive : 0 < size) :
    constructHtable size [] = (some (Htable.empty size), []) ∧
    (∀ calls, UnshadowedRun (Htable.empty size) calls →
      runCalls (Htable.empty size) calls = specCalls FiniteMap.empty calls) ∧
    ∀ keys : Set CString,
      (∀ calls : List Call, (∀ call ∈ calls, call.key ∈ keys) →
        runCalls (Htable.empty size) calls = specCalls FiniteMap.empty calls) ↔
      ∀ k ∈ keys, ∀ k' ∈ keys, k < k' → hashFunction k size ≠ hashFunction k' size := by
  have positive' : 0 < (Htable.empty size).size := by simpa using positive
  have simulated (calls) (clear : UnshadowedRun (Htable.empty size) calls) :
      runCalls (Htable.empty size) calls = specCalls FiniteMap.empty calls :=
    runCalls_eq_specCalls _ _ calls positive' (Htable.binding_empty size) clear
  refine ⟨rfl, simulated, fun keys => ⟨fun correct k member k' member' below same => ?_, ?_⟩⟩
  · -- storing the longer key makes a lookup of the shorter one answer
    have run := correct [.add k' CString.empty, .get k] (by simp [Call.key, member, member'])
    have next : Call.next (Htable.empty size) (.add k' CString.empty) =
        (Htable.empty size).put k' CString.empty := by simp [Call.next]
    have answer : ((Htable.empty size).put k' CString.empty).lookup k = some CString.empty := by
      rw [Htable.lookup, Htable.size_put, Htable.bucket_put _ positive', Htable.size_empty,
        if_pos same, Htable.bucket_empty, Chain.put_of_miss _ _ _ (by simp)]
      simp [Chain.lookup, below.le]
    have apart : k ≠ k' := below.ne
    simp [runCalls, specCalls, next, answer, FiniteMap.empty, apart] at run
  · intro free calls within
    refine simulated calls (unshadowedRun_of_keys _ keys calls positive' (Htable.placed_empty size)
      (Htable.keysIn_empty size keys) ?_ within)
    simpa using free

/-- Three keys in one bucket of a server's table, none a prefix of another one. -/
def collidingKeys : List CString := [.ofMemory [116], .ofMemory [104, 107], .ofMemory [110, 113]]

theorem htable_refines_finite_map_server :
    runCalls (Htable.empty htableSize)
      [.add (.ofMemory [116]) (.ofMemory [49]), .add (.ofMemory [104, 107]) (.ofMemory [50]),
        .get (.ofMemory [110, 113]), .add (.ofMemory [110, 113]) (.ofMemory [51]),
        .add (.ofMemory [116]) (.ofMemory [52]), .get (.ofMemory [116]),
        .get (.ofMemory [104, 107]), .get (.ofMemory [110, 113])] =
      [none, some (.ofMemory [52]), some (.ofMemory [50]), some (.ofMemory [51])] := by
  have apart : ∀ k ∈ collidingKeys, ∀ k' ∈ collidingKeys, k < k' →
      hashFunction k htableSize ≠ hashFunction k' htableSize := by decide +kernel
  have correct := ((htable_refines_finite_map htableSize (by decide)).2.2
    {key | key ∈ collidingKeys}).mpr apart
  refine (correct _ ?_).trans (by decide)
  simp [Call.key, collidingKeys]

example : ∀ k ∈ collidingKeys, hashFunction k htableSize = 207 := by decide +kernel

/-- In a server's table the key `t`, never stored, is answered with the value of `th`. -/
theorem htable_answers_missing_key :
    ¬ ∀ size, 0 < size → ∀ calls,
      runCalls (Htable.empty size) calls = specCalls FiniteMap.empty calls := by
  intro correct
  have run := correct htableSize (by decide)
    [.add ⟨[116, 104], by decide⟩ ⟨[49], by decide⟩, .get ⟨[116], by decide⟩]
  revert run
  decide +kernel

end PpsDht
