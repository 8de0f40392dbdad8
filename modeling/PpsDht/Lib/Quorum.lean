import Mathlib.Data.List.Perm.Subperm
import Mathlib.Data.List.Nodup
import Mathlib.Tactic.ByContra

/-! Counting different members: when a list of votes covers a quorum of different
members, and when two quorums must share one. -/
namespace Quorum

variable {α : Type} {all first second : List α}

/-- A list that covers at least as many different elements as it is long has no duplicates. -/
theorem nodup_of_covered (nodup : first.Nodup) (within : ∀ x ∈ first, x ∈ all)
    (long : all.length ≤ first.length) : all.Nodup :=
  ((List.subperm_of_subset nodup within).perm_of_length_le long).nodup_iff.mp nodup

theorem length_le_of_within (nodup : first.Nodup) (within : ∀ x ∈ first, x ∈ all) :
    first.length ≤ all.length :=
  (List.subperm_of_subset nodup within).length_le

/-- Two sets of members that are together more than all members share one. -/
theorem meet (nodup : first.Nodup) (nodup' : second.Nodup) (within : ∀ x ∈ first, x ∈ all)
    (within' : ∀ x ∈ second, x ∈ all) (many : all.length < first.length + second.length) :
    ∃ x ∈ first, x ∈ second := by
  by_contra apart
  push Not at apart
  have disjoint : (first ++ second).Nodup :=
    List.nodup_append.mpr ⟨nodup, nodup', fun x hx y hy same => apart x hx (same ▸ hy)⟩
  have covered : ∀ x ∈ first ++ second, x ∈ all := by
    intro x member
    rcases List.mem_append.mp member with h | h
    · exact within x h
    · exact within' x h
  have bound := length_le_of_within disjoint covered
  rw [List.length_append] at bound
  omega

end Quorum
