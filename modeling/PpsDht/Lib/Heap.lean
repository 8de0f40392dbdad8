import Mathlib.Data.List.Nodup
import Mathlib.Data.List.Perm.Basic

/-! Heaps of blocks. No address is handed out twice, so an access through a freed address
never meets another block. What a heap holds is a list of its blocks, in any order; every
operation changes the list in one place and leaves the rest of it alone. -/

structure Heap (C : Type) where
  block : Nat → Option C
  fresh : Nat
  positive : 0 < fresh
  null : block 0 = none
  beyond : ∀ address, fresh ≤ address → block address = none

namespace Heap

variable {C : Type}

def empty : Heap C where
  block _ := none
  fresh := 1
  positive := Nat.one_pos
  null := rfl
  beyond _ _ := rfl

def allocate (h : Heap C) (c : C) : Nat × Heap C :=
  (h.fresh, {
    block := Function.update h.block h.fresh (some c)
    fresh := h.fresh + 1
    positive := Nat.succ_pos _
    null := by rw [Function.update_of_ne (Nat.ne_of_lt h.positive), h.null]
    beyond := fun address above => by
      rw [Function.update_of_ne (by omega), h.beyond address (by omega)] })

/-- Changes the content of a live block, or drops the block. -/
def replace (h : Heap C) (address : Nat) (c : Option C) (live : (h.block address).isSome) :
    Heap C where
  block := Function.update h.block address c
  fresh := h.fresh
  positive := h.positive
  null := by
    rw [Function.update_of_ne, h.null]
    rintro rfl
    simp [h.null] at live
  beyond other above := by
    rw [Function.update_of_ne, h.beyond other above]
    rintro rfl
    simp [h.beyond other above] at live

def store (h : Heap C) (address : Nat) (c : C) : Option (Heap C) :=
  if live : (h.block address).isSome then some (h.replace address (some c) live) else none

/-- `free`: nothing happens at the null address. -/
def release (h : Heap C) (address : Nat) : Option (Heap C) :=
  if address = 0 then some h
  else if live : (h.block address).isSome then some (h.replace address none live) else none

/-- These are the blocks of the heap, each listed once. -/
structure Holds (h : Heap C) (blocks : List (Nat × C)) : Prop where
  nodup : (blocks.map Prod.fst).Nodup
  mem_iff : ∀ address c, h.block address = some c ↔ (address, c) ∈ blocks

variable {h : Heap C} {blocks others rest : List (Nat × C)} {address : Nat} {c c' : C}

theorem holds_empty : (empty : Heap C).Holds [] where
  nodup := List.nodup_nil
  mem_iff _ _ := by simp [empty]

theorem Holds.perm (holds : h.Holds blocks) (same : blocks.Perm others) : h.Holds others where
  nodup := (same.map Prod.fst).nodup_iff.mp holds.nodup
  mem_iff address c := (holds.mem_iff address c).trans same.mem_iff

theorem Holds.block_eq (holds : h.Holds blocks) (member : (address, c) ∈ blocks) :
    h.block address = some c := (holds.mem_iff address c).mpr member

theorem Holds.ne_null (holds : h.Holds blocks) (member : (address, c) ∈ blocks) :
    address ≠ 0 := by
  rintro rfl
  have live := holds.block_eq member
  simp [h.null] at live

/-- An address outside the list belongs to no block: each use of it is an error. -/
theorem Holds.block_none_iff (holds : h.Holds blocks) :
    h.block address = none ↔ address ∉ blocks.map Prod.fst := by
  rw [Option.eq_none_iff_forall_ne_some]
  simp only [ne_eq, holds.mem_iff, List.mem_map, Prod.exists, exists_and_right, exists_eq_right,
    not_exists]

theorem Holds.allocate (holds : h.Holds blocks) (c : C) :
    (h.allocate c).2.Holds (((h.allocate c).1, c) :: blocks) where
  nodup := by
    refine List.nodup_cons.mpr ⟨?_, holds.nodup⟩
    exact holds.block_none_iff.mp (h.beyond h.fresh (Nat.le_refl _))
  mem_iff address content := by
    have unused : h.block h.fresh = none := h.beyond h.fresh (Nat.le_refl _)
    by_cases new : address = h.fresh
    · subst new
      have outside : (h.fresh, content) ∉ blocks := by
        rw [← holds.mem_iff, unused]
        simp
      simp [Heap.allocate, outside, eq_comm]
    · simp [Heap.allocate, new, holds.mem_iff]

/-- Dropping or rewriting a block leaves every other block as it was. -/
theorem Holds.block_replace (holds : h.Holds ((address, c) :: rest)) (content : Option C)
    (live : (h.block address).isSome) (other : Nat) (d : C) :
    (h.replace address content live).block other = some d ↔
      other = address ∧ content = some d ∨ (other, d) ∈ rest := by
  have outside : address ∉ rest.map Prod.fst := (List.nodup_cons.mp holds.nodup).1
  by_cases own : other = address
  · subst own
    have notLater : (other, d) ∉ rest := fun member => outside (List.mem_map_of_mem member)
    simp [replace, notLater]
  · simp [replace, own, holds.mem_iff]

theorem Holds.store (holds : h.Holds ((address, c) :: rest)) (c' : C) :
    ∃ h', h.store address c' = some h' ∧ h'.Holds ((address, c') :: rest) := by
  have live : (h.block address).isSome := by simp [holds.block_eq List.mem_cons_self]
  refine ⟨_, dif_pos live, holds.nodup, fun other d => ?_⟩
  rw [holds.block_replace, List.mem_cons, Prod.mk.injEq, Option.some.injEq, eq_comm (a := c')]

theorem Holds.release (holds : h.Holds ((address, c) :: rest)) :
    ∃ h', h.release address = some h' ∧ h'.Holds rest := by
  have member : (address, c) ∈ (address, c) :: rest := List.mem_cons_self
  have live : (h.block address).isSome := by simp [holds.block_eq member]
  refine ⟨h.replace address none live, ?_, (List.nodup_cons.mp holds.nodup).2, fun other d => ?_⟩
  · rw [Heap.release, if_neg (holds.ne_null member), dif_pos live]
  · simp [holds.block_replace]

/-! Linked segments: chains of nodes, each of which knows the address of the next. -/

section Segment

variable {N : Type} (addressOf : N → Nat) (blocksOf : N → Nat → List (Nat × C))

/-- Where a chain starts that goes on at `last`. -/
def first (last : Nat) : List N → Nat
  | [] => last
  | n :: _ => addressOf n

def segment (last : Nat) : List N → List (Nat × C)
  | [] => []
  | n :: rest => blocksOf n (first addressOf last rest) ++ segment last rest

@[simp] theorem first_nil (last : Nat) : first addressOf last [] = last := rfl

@[simp] theorem first_cons (last : Nat) (n : N) (rest : List N) :
    first addressOf last (n :: rest) = addressOf n := rfl

@[simp] theorem segment_nil (last : Nat) : segment addressOf blocksOf last [] = [] := rfl

@[simp] theorem segment_cons (last : Nat) (n : N) (rest : List N) :
    segment addressOf blocksOf last (n :: rest) =
      blocksOf n (first addressOf last rest) ++ segment addressOf blocksOf last rest := rfl

end Segment

end Heap
