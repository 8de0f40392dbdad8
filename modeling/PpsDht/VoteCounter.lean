import PpsDht.Network
import PpsDht.HtableMap

/-! The vote counter of `network.c`. The votes for a string are counted in one character
stored under it, which is widened with its sign when it is read back: after 128 votes it is
negative, and after 256 it is the NUL that ends the string. -/
namespace PpsDht

open CLib

def stored (count : Nat) : Option CString :=
  if count = 0 then none else some (counter (UInt64.ofNat count))

def nextCount (count : Nat) : UInt64 := charToSize (UInt8.ofNat count) + 1

/-- What the last of `n` calls returns on a fresh table, with the table behind it. -/
def voteRun (size : Nat) (key : CString) (R : UInt64) : Nat → Bool × Htable × Alloc
  | 0 => (false, Htable.empty size, [])
  | n + 1 =>
    match voteRun size key R n with
    | (_, t, a) => incrementAndTest t key R a

/-- Where `n` and what the counter makes of it are on the same side of `R`. -/
def SameSide (n R : Nat) : Prop :=
  if n % 256 ≤ 128 then R ≤ n % 256 ∨ n < R
  else (R ≤ n ∧ R ≤ 2 ^ 64 - 256 + n % 256) ∨ (n < R ∧ 2 ^ 64 - 256 + n % 256 < R)

theorem counter_toUInt64 (b : UInt8) : counter (charToSize b + 1) = CString.ofMemory [b + 1] := by
  have kept : (charToSize b + 1).toUInt8 = b + 1 := by
    apply UInt8.toNat_inj.mp
    rw [UInt64.toNat_toUInt8, UInt64.toNat_add, UInt8.toNat_add]
    rw [charToSize]
    split
    · simp
    · rw [UInt64.toNat_sub]
      simp
      omega
  rw [counter, kept]

theorem toUInt8_ofNat (n : Nat) : (UInt64.ofNat n).toUInt8 = UInt8.ofNat n := by
  apply UInt8.toNat_inj.mp
  simp only [UInt64.toNat_toUInt8, UInt64.toNat_ofNat', UInt8.toNat_ofNat']
  omega

/-- The character is read back, also where it is the NUL of an empty string. -/
theorem headD_counter (n : Nat) : (counter (UInt64.ofNat n)).bytes.headD 0 = UInt8.ofNat n := by
  rw [counter, toUInt8_ofNat, CString.bytes_ofMemory]
  by_cases zero : UInt8.ofNat n = 0
  · simp [zero]
  · simp [zero]

theorem counter_nextCount (count : Nat) :
    counter (nextCount count) = counter (UInt64.ofNat (count + 1)) := by
  rw [nextCount, counter_toUInt64, counter, toUInt8_ofNat, UInt8.ofNat_add]
  rfl

theorem toNat_nextCount (count : Nat) :
    (nextCount count).toNat =
      if count % 256 < 128 then count % 256 + 1 else (2 ^ 64 - 255 + count % 256) % 2 ^ 64 := by
  have value : (UInt8.ofNat count).toNat = count % 256 := UInt8.toNat_ofNat'
  have sign : UInt8.ofNat count < 128 ↔ count % 256 < 128 := by
    rw [UInt8.lt_iff_toNat_lt, value]
    rfl
  rw [nextCount, charToSize, UInt64.toNat_add]
  by_cases positive : count % 256 < 128
  · rw [if_pos (sign.mpr positive), if_pos positive, UInt8.toNat_toUInt64, value]
    simp only [UInt64.toNat_one]
    omega
  · rw [if_neg (mt sign.mp positive), if_neg positive, UInt64.toNat_sub, UInt8.toNat_toUInt64, value]
    simp only [UInt64.toNat_ofNat]
    omega

theorem incrementAndTest_counted {t : Htable} {key : CString} {R : UInt64} {count : Nat}
    (found : t.lookup key = stored count) (one : 1 ≤ R.toNat) :
    incrementAndTest t key R [] =
      (decide (R ≤ nextCount count), t.put key (counter (UInt64.ofNat (count + 1))), []) := by
  cases count with
  | zero =>
    have first : (R == 1) = decide (R ≤ nextCount 0) := by
      rw [Bool.eq_iff_iff, beq_iff_eq, decide_eq_true_iff, ← UInt64.toNat_inj,
        UInt64.le_iff_toNat_le, toNat_nextCount, if_pos (by decide), UInt64.toNat_one]
      omega
    simp only [incrementAndTest, getHtableValue_nil, found, stored, ↓reduceIte,
      addHtableValue_nil, first]
    rfl
  | succ n =>
    have read : charToSize ((counter (UInt64.ofNat (n + 1))).bytes.headD 0) + 1 =
        nextCount (n + 1) := by
      rw [headD_counter, nextCount]
    simp only [incrementAndTest, getHtableValue_nil, found, stored, Nat.succ_ne_zero,
      ↓reduceIte, addHtableValue_nil, read, counter_nextCount]

theorem voteRun_succ {size : Nat} {key : CString} {R : UInt64} {n : Nat} {result : Bool}
    {t : Htable} {a : Alloc} (ran : voteRun size key R n = (result, t, a)) :
    voteRun size key R (n + 1) = incrementAndTest t key R a := by
  simp only [voteRun, ran]

theorem voteRun_stored {size : Nat} (positive : 0 < size) (key : CString) {R : UInt64}
    (one : 1 ≤ R.toNat) (n : Nat) :
    ∃ result t, voteRun size key R n = (result, t, []) ∧ t.size = size ∧
      t.lookup key = stored n := by
  induction n with
  | zero =>
    refine ⟨false, Htable.empty size, rfl, Htable.size_empty size, ?_⟩
    simp [Htable.lookup, Chain.lookup, stored]
  | succ n ih =>
    obtain ⟨result, t, ran, same, found⟩ := ih
    refine ⟨_, _, (voteRun_succ ran).trans (incrementAndTest_counted found one), ?_, ?_⟩
    · rw [Htable.size_put, same]
    · rw [Htable.lookup_put_self (same ▸ positive), stored, if_neg (Nat.succ_ne_zero n)]

theorem voteRun_result {size : Nat} (positive : 0 < size) (key : CString) {R : UInt64}
    (one : 1 ≤ R.toNat) (n : Nat) :
    (voteRun size key R (n + 1)).1 = decide (R ≤ nextCount n) := by
  obtain ⟨_, t, ran, _, found⟩ := voteRun_stored positive key one n
  rw [voteRun_succ ran, incrementAndTest_counted found one]

/-- The last of `n` votes is answered exactly when the counter and `n` are on the same side of
the threshold. -/
theorem vote_counter_exact_iff {size : Nat} (positive : 1 ≤ size) (key : CString) {R : UInt64}
    (one : 1 ≤ R.toNat) {n : Nat} (voted : 1 ≤ n) :
    ((voteRun size key R n).1 = true ↔ R.toNat ≤ n) ↔ SameSide n R.toNat := by
  obtain ⟨n, rfl⟩ : ∃ m, n = m + 1 := ⟨n - 1, by omega⟩
  have bound := R.toNat_lt
  rw [voteRun_result positive key one, decide_eq_true_iff, UInt64.le_iff_toNat_le,
    toNat_nextCount, SameSide]
  split <;> split <;> omega

theorem vote_counter_exact_three : (voteRun 1 CString.empty 2 3).1 = true ↔ 2 ≤ 3 :=
  (vote_counter_exact_iff (by decide) CString.empty (by decide) (by decide)).mpr
    (by unfold SameSide; decide)

/-- 200 votes are needed and 129 are taken for enough. -/
theorem vote_counter_overflows :
    ¬ ∀ (size : Nat) (key : CString) (R : UInt64) (n : Nat), 1 ≤ size → 1 ≤ R.toNat → 1 ≤ n →
      ((voteRun size key R n).1 = true ↔ R.toNat ≤ n) := by
  intro exactly
  have wrong := exactly 1 CString.empty 200 129 (by decide) (by decide) (by decide)
  rw [voteRun_result (by decide) CString.empty (by decide)] at wrong
  exact absurd wrong (by decide)

end PpsDht
