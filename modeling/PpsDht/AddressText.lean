import PpsDht.ListNodes

/-! An address as a text: `inet_pton` reads exactly what `inet_ntop` writes. -/
namespace PpsDht

open CLib

theorem octet_eq_some_iff (text : List UInt8) (n : Nat) :
    octet text = some n ↔ n ≤ 255 ∧ text = Decimal.print n := by
  rw [octet]
  constructor
  · intro read
    split at read
    next good =>
      obtain ⟨some, _, all, leading, small⟩ := good
      obtain rfl := Option.some.inj read
      exact ⟨small, (Decimal.print_value some (List.all_eq_true.mp all) leading).symm⟩
    next => contradiction
  · rintro ⟨small, rfl⟩
    have leading (zero : (Decimal.print n).head? = some 48) : (Decimal.print n).length = 1 := by
      obtain rfl := Decimal.print_leading_zero zero
      rfl
    rw [Decimal.value_print, if_pos]
    exact ⟨Decimal.print_ne_nil n, Decimal.length_print_le (by decide) (by omega),
      List.all_eq_true.mpr (Decimal.print_digits n), leading, small⟩

def place (address : UInt32) (i : Nat) : Nat := address.toNat / 256 ^ i % 256

theorem place_le (address : UInt32) (i : Nat) : place address i ≤ 255 :=
  Nat.le_of_lt_succ (Nat.mod_lt _ (by decide))

theorem inetNtop_eq (address : UInt32) : inetNtop address = [46].intercalate
    [Decimal.print (place address 0), Decimal.print (place address 1),
      Decimal.print (place address 2), Decimal.print (place address 3)] := rfl

theorem dot_notMem_print (n : Nat) : (46 : UInt8) ∉ Decimal.print n :=
  fun member => absurd (Decimal.print_digits n 46 member) (by decide)

/-- The valid addresses are the printed ones. -/
theorem inetPton_eq_some_iff (ip : CString) (address : UInt32) :
    inetPton ip = some address ↔ ip.bytes = inetNtop address := by
  constructor
  · intro valid
    have whole : [46].intercalate (ip.bytes.splitOn 46) = ip.bytes := List.intercalate_splitOn 46
    rw [inetPton] at valid
    split at valid
    next ta tb tc td parts =>
      split at valid
      next a b c d ha hb hc hd =>
        obtain ⟨sa, rfl⟩ := (octet_eq_some_iff ..).mp ha
        obtain ⟨sb, rfl⟩ := (octet_eq_some_iff ..).mp hb
        obtain ⟨sc, rfl⟩ := (octet_eq_some_iff ..).mp hc
        obtain ⟨sd, rfl⟩ := (octet_eq_some_iff ..).mp hd
        have value : address.toNat = a + 256 * b + 256 ^ 2 * c + 256 ^ 3 * d := by
          rw [← Option.some.inj valid, UInt32.toNat_ofNat']
          omega
        rw [← whole, parts, inetNtop_eq]
        rw [show place address 0 = a by rw [place, value]; omega,
          show place address 1 = b by rw [place, value]; omega,
          show place address 2 = c by rw [place, value]; omega,
          show place address 3 = d by rw [place, value]; omega]
      next => contradiction
    next => contradiction
  · intro printed
    have parts : ip.bytes.splitOn 46 = [Decimal.print (place address 0),
        Decimal.print (place address 1), Decimal.print (place address 2),
        Decimal.print (place address 3)] := by
      rw [printed, inetNtop_eq, List.splitOn_intercalate 46 _ (List.cons_ne_nil _ _)]
      simp [dot_notMem_print]
    have read (i : Nat) : octet (Decimal.print (place address i)) = some (place address i) :=
      (octet_eq_some_iff ..).mpr ⟨place_le address i, rfl⟩
    have bound := address.toNat_lt
    simp only [inetPton, parts, read, Option.some.injEq]
    apply UInt32.toNat_inj.mp
    rw [UInt32.toNat_ofNat']
    simp only [place]
    omega

end PpsDht
