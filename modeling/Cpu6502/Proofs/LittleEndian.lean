import Mathlib.Data.Nat.Digits.Lemmas
import Cpu6502.Proofs.AddWithCarry

/-!
Numbers of several bytes, the lowest first, without a sign and with one. A byte put below a number
moves its signed value up by that byte (`littleEndianSigned_cons`), and does not change whether it
is in range (`representable_cons`); the complement of all bytes is the number less one with its sign
changed (`littleEndianSigned_complement`).
-/

namespace Cpu6502

variable {n : Nat} {vs : List UInt8}

def littleEndian (vs : List UInt8) : Nat := Nat.ofDigits 256 (vs.map UInt8.toNat)

def littleEndianSigned (vs : List UInt8) : Int := signed vs.length (littleEndian vs)

theorem littleEndian_cons (v : UInt8) (vs : List UInt8) :
    littleEndian (v :: vs) = v.toNat + 256 * littleEndian vs := rfl

theorem littleEndian_lt (vs : List UInt8) : littleEndian vs < 256 ^ vs.length := by
  rw [← vs.length_map UInt8.toNat]
  refine Nat.ofDigits_lt_base_pow_length (by decide) fun k hk => ?_
  obtain ⟨v, -, rfl⟩ := List.mem_map.mp hk
  exact v.toNat_lt

theorem littleEndian_complement (vs : List UInt8) :
    littleEndian (vs.map (~~~·)) + littleEndian vs + 1 = 256 ^ vs.length := by
  induction vs with
  | nil => rfl
  | cons v vs ih =>
    have hv := v.toNat_lt
    have hnot : (~~~v).toNat = 255 - v.toNat := v.toNat_not
    rw [List.map_cons, littleEndian_cons, littleEndian_cons, List.length_cons, pow_succ, ← ih, hnot]
    omega

theorem two_dvd_pow_length (hvs : vs ≠ []) : 2 ∣ 256 ^ vs.length :=
  dvd_pow (by decide) (mt List.length_eq_zero_iff.mp hvs)

theorem representable_cons (hn : n ≠ 0) (v : UInt8) (z : Int) :
    Representable (n + 1) (v.toNat + 256 * z) ↔ Representable n z := by
  have hv := v.toNat_lt
  have heven : (2 : Int) ∣ 256 ^ n := dvd_pow (by decide) hn
  rw [Representable, Representable, pow_succ]
  generalize (256 : Int) ^ n = m at *
  omega

theorem littleEndianSigned_eq (vs : List UInt8) :
    littleEndianSigned vs = if 2 * littleEndian vs < 256 ^ vs.length then (littleEndian vs : Int)
      else littleEndian vs - (256 ^ vs.length : Nat) := by
  rw [littleEndianSigned, signed, bmod_of_lt (littleEndian_lt vs)]

theorem littleEndianSigned_cons (v : UInt8) (hvs : vs ≠ []) :
    littleEndianSigned (v :: vs) = v.toNat + 256 * littleEndianSigned vs := by
  have hv := v.toNat_lt
  have heven := two_dvd_pow_length hvs
  rw [littleEndianSigned_eq, littleEndianSigned_eq, littleEndian_cons, List.length_cons, pow_succ]
  generalize 256 ^ vs.length = m at *
  split <;> split <;> omega

theorem littleEndianSigned_complement (hvs : vs ≠ []) :
    littleEndianSigned (vs.map (~~~·)) = -1 - littleEndianSigned vs := by
  have hsum := littleEndian_complement vs
  have heven := two_dvd_pow_length hvs
  rw [littleEndianSigned_eq, littleEndianSigned_eq, List.length_map]
  generalize 256 ^ vs.length = m at *
  split <;> split <;> omega

end Cpu6502
