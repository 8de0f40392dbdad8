import PpsDht.Lib.Heap
import PpsDht.Lib.Loop

/-! Programs over a heap. An access of no block is a fault. Whether an allocation succeeds
is decided by a state next to the heap. `wp` says that a program returns, and with what;
its rules for the heap operations speak of the list of blocks that the heap holds. -/
namespace Heap

open Loop

structure Memory (C σ : Type) where
  heap : Heap C
  supply : σ

def Prog (C σ α : Type) := Memory C σ → Outcome (α × Memory C σ)

namespace Prog

variable {C σ α β : Type}

instance : Monad (Prog C σ) where
  pure a m := .done (a, m)
  bind x f m := (x m).bind fun (a, m) => f a m

def fault : Prog C σ α := fun _ => .fault

def outOfFuel : Prog C σ α := fun _ => .outOfFuel

def load (address : Nat) : Prog C σ C := fun m =>
  match m.heap.block address with
  | none => .fault
  | some c => .done (c, m)

def store (address : Nat) (c : C) : Prog C σ Unit := fun m =>
  match m.heap.store address c with
  | none => .fault
  | some heap => .done ((), { m with heap := heap })

def free (address : Nat) : Prog C σ Unit := fun m =>
  match m.heap.release address with
  | none => .fault
  | some heap => .done ((), { m with heap := heap })

/-- The null address when the supply refuses. -/
def calloc (grant : σ → Bool × σ) (c : C) : Prog C σ Nat := fun m =>
  match grant m.supply with
  | (false, supply) => .done (0, { m with supply := supply })
  | (true, supply) => .done ((m.heap.allocate c).1, ⟨(m.heap.allocate c).2, supply⟩)

/-- The program returns, and what it returns is right together with the memory it leaves. -/
def wp (x : Prog C σ α) (post : α → Memory C σ → Prop) (m : Memory C σ) : Prop :=
  ∃ result m', x m = .done (result, m') ∧ post result m'

variable {x : Prog C σ α} {f : α → Prog C σ β} {post post' : α → Memory C σ → Prop}
  {m : Memory C σ}

theorem wp_mono (runs : wp x post m) (weaker : ∀ a m', post a m' → post' a m') :
    wp x post' m := by
  obtain ⟨a, m', done, right⟩ := runs
  exact ⟨a, m', done, weaker a m' right⟩

theorem ne_fault_of_wp (runs : wp x post m) : x m ≠ .fault := by
  obtain ⟨a, m', done, _⟩ := runs
  simp [done]

theorem wp_pure {a : α} (right : post a m) : wp (pure a) post m := ⟨a, m, rfl, right⟩

theorem wp_bind {after : β → Memory C σ → Prop} (runs : wp x (fun a => wp (f a) after) m) :
    wp (x >>= f) after m := by
  obtain ⟨a, m', first, b, m'', second, right⟩ := runs
  refine ⟨b, m'', ?_, right⟩
  change (x m).bind _ = _
  rw [first]
  exact second

theorem fault_bind (faults : x m = .fault) : (x >>= f) m = .fault := by
  change (x m).bind _ = _
  rw [faults]
  rfl

/-- After a part that returns, a program ends as its rest does. -/
theorem bind_eq_of_wp {outcome : Outcome (β × Memory C σ)}
    (runs : wp x (fun a m' => f a m' = outcome) m) : (x >>= f) m = outcome := by
  obtain ⟨a, m', first, ended⟩ := runs
  change (x m).bind _ = _
  rw [first]
  exact ended

/-- The program ends as the outcome says it does, and what it returns stands for the result. -/
def EndsAs {γ : Type} (outcome : Outcome γ) (x : Prog C σ α) (post : γ → α → Memory C σ → Prop)
    (m : Memory C σ) : Prop :=
  match outcome with
  | .done result => wp x (post result) m
  | .fault => x m = .fault
  | .outOfFuel => x m = .outOfFuel

section EndsAs

variable {γ δ : Type} {outcome : Outcome γ} {g : γ → Outcome δ}

theorem endsAs_pure {a : α} {result : γ} {post : γ → α → Memory C σ → Prop}
    (right : post result a m) : EndsAs (.done result) (pure a) post m := wp_pure right

/-- A first part that the outcome knows nothing of. -/
theorem endsAs_of_wp {post : γ → β → Memory C σ → Prop}
    (runs : wp x (fun a m' => EndsAs outcome (f a) post m') m) :
    EndsAs outcome (x >>= f) post m := by
  cases outcome with
  | done result => exact wp_bind runs
  | fault => exact bind_eq_of_wp runs
  | outOfFuel => exact bind_eq_of_wp runs

theorem endsAs_bind {post : γ → α → Memory C σ → Prop} {after : δ → β → Memory C σ → Prop}
    (first : EndsAs outcome x post m)
    (next : ∀ result a m', outcome = .done result → post result a m' →
      EndsAs (g result) (f a) after m') :
    EndsAs (outcome.bind g) (x >>= f) after m := by
  cases outcome with
  | done result => exact endsAs_of_wp (wp_mono first fun a m' => next result a m' rfl)
  | fault => exact fault_bind first
  | outOfFuel =>
    change (x m).bind _ = _
    rw [show x m = .outOfFuel from first]
    rfl

end EndsAs

variable {blocks rest : List (Nat × C)} {address : Nat} {c : C}

theorem wp_load {post : C → Memory C σ → Prop} (holds : m.heap.Holds blocks)
    (member : (address, c) ∈ blocks) (right : post c m) : wp (load address) post m :=
  ⟨c, m, by simp only [load, holds.block_eq member], right⟩

theorem wp_store {post : Unit → Memory C σ → Prop} (c' : C)
    (holds : m.heap.Holds ((address, c) :: rest))
    (right : ∀ m', m'.supply = m.supply → m'.heap.Holds ((address, c') :: rest) → post () m') :
    wp (store address c') post m := by
  obtain ⟨heap, stored, kept⟩ := holds.store c'
  exact ⟨(), { m with heap := heap }, by simp only [store, stored], right _ rfl kept⟩

theorem wp_free {post : Unit → Memory C σ → Prop} (holds : m.heap.Holds ((address, c) :: rest))
    (right : ∀ m', m'.supply = m.supply → m'.heap.Holds rest → post () m') :
    wp (free address) post m := by
  obtain ⟨heap, freed, kept⟩ := holds.release
  exact ⟨(), { m with heap := heap }, by simp only [free, freed], right _ rfl kept⟩

theorem wp_free_null {post : Unit → Memory C σ → Prop} (right : post () m) :
    wp (free 0) post m :=
  ⟨(), m, by simp only [free, Heap.release, ↓reduceIte], right⟩

theorem wp_calloc {post : Nat → Memory C σ → Prop} (grant : σ → Bool × σ) (c : C)
    (holds : m.heap.Holds blocks)
    (refused : ∀ m', grant m.supply = (false, m'.supply) → m'.heap.Holds blocks → post 0 m')
    (granted : ∀ new m', new ≠ 0 → grant m.supply = (true, m'.supply) →
      m'.heap.Holds ((new, c) :: blocks) → post new m') :
    wp (calloc grant c) post m := by
  rcases decided : grant m.supply with ⟨_ | _, supply⟩
  · exact ⟨0, ⟨m.heap, supply⟩, by simp only [calloc, decided], refused _ decided holds⟩
  · have kept := holds.allocate c
    exact ⟨_, ⟨(m.heap.allocate c).2, supply⟩, by simp only [calloc, decided],
      granted _ _ (kept.ne_null List.mem_cons_self) decided kept⟩

theorem load_null : load 0 m = .fault := by simp only [load, m.heap.null]

theorem store_null (c : C) : store 0 c m = .fault := by
  simp [store, Heap.store, m.heap.null]

end Prog

end Heap
