import PpsDht.Lib.CString
import Mathlib.Algebra.Group.Nat.Defs

/-! Error codes, the sizes of `config.h` and the outcomes of memory allocation.
Every call of the allocator consumes one outcome; the empty list lets all succeed. -/
namespace PpsDht

open CLib

inductive ErrorCode where
  | none
  | nomem
  | io
  | badParameter
  | network
  | notFound
  deriving DecidableEq, Repr

def sizeMax : Nat := 2 ^ 64 - 1

/-- The longest key or value in a message, without its NUL. -/
def maxMsgElemSize : Nat := 32753

def maxMsgSize : Nat := maxMsgElemSize * 2 + 1

/-- The allocations to come, in order: `true` succeeds, and so do all past the end. -/
abbrev Alloc := List Bool

def malloc : Alloc → Bool × Alloc
  | [] => (true, [])
  | ok :: rest => (ok, rest)

@[simp] theorem malloc_nil : malloc [] = (true, []) := rfl

def strdup (s : CString) (a : Alloc) : Option CString × Alloc :=
  match malloc a with
  | (true, a) => (some s, a)
  | (false, a) => (none, a)

@[simp] theorem strdup_nil (s : CString) : strdup s [] = (some s, []) := rfl

theorem strdup_cases (s : CString) (a : Alloc) :
    ∃ rest, strdup s a = (some s, rest) ∨ strdup s a = (none, rest) := by
  unfold strdup
  rcases malloc a with ⟨ok, rest⟩
  cases ok
  · exact ⟨rest, .inr rfl⟩
  · exact ⟨rest, .inl rfl⟩

end PpsDht
