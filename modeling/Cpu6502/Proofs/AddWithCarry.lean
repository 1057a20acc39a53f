import Mathlib.Data.Nat.Bitwise
import Cpu6502.Arithmetic

/-!
Addition with carry as arithmetic on integers. The accumulator and the carry together are the sum
(`Registers.addWithCarry_value`), and overflow says that the signed sum does not fit a byte
(`Registers.addWithCarry_overflow`). Subtraction adds the complement, which is the number less one
with its sign changed.
-/

namespace Cpu6502

def signed (n k : Nat) : Int := (k : Int).bmod (256 ^ n)

def Representable (n : Nat) (z : Int) : Prop := -256 ^ n ≤ 2 * z ∧ 2 * z < 256 ^ n

instance (n : Nat) (z : Int) : Decidable (Representable n z) :=
  inferInstanceAs (Decidable (_ ∧ _))

theorem bmod_of_lt {k m : Nat} (h : k < m) :
    (k : Int).bmod m = if 2 * k < m then (k : Int) else k - m := by
  have hmod : (k : Int) % m = k := Int.emod_eq_of_lt (by omega) (by omega)
  rw [Int.bmod, hmod]
  split <;> split <;> omega

theorem topBit_eq_testBit (v : UInt8) : (v &&& 0x80 != 0) = v.toNat.testBit 7 := by
  have hand : (v &&& 0x80).toNat = (v.toNat.testBit 7).toNat * 128 := Nat.and_two_pow v.toNat 7
  have hzero : v &&& 0x80 = 0 ↔ (v &&& 0x80).toNat = 0 := UInt8.toNat_inj.symm
  rw [bne, Bool.eq_iff_iff, Bool.not_eq_true', beq_eq_false_iff_ne, Ne, hzero, hand]
  cases v.toNat.testBit 7 <;> simp

theorem topBit_eq (v : UInt8) : (v &&& 0x80 != 0) = decide (128 ≤ v.toNat) := by
  have hv := v.toNat_lt
  rw [topBit_eq_testBit, Nat.testBit_eq_decide_div_mod_eq]
  congr 1
  apply propext
  omega

theorem topBit_and (u v : UInt8) :
    (u &&& v &&& 0x80 != 0) = ((u &&& 0x80 != 0) && (v &&& 0x80 != 0)) := by
  simp only [topBit_eq_testBit, UInt8.toNat_and, Nat.testBit_and]

theorem topBit_xor (u v : UInt8) :
    ((u ^^^ v) &&& 0x80 != 0) = ((u &&& 0x80 != 0) ^^ (v &&& 0x80 != 0)) := by
  simp only [topBit_eq_testBit, UInt8.toNat_xor, Nat.testBit_xor]

/-- The two addends have one sign and the byte of the sum has the other exactly if the signed
sum is out of range. -/
theorem overflow_iff {x y z : UInt8} {c k : Nat} (hc : c ≤ 1)
    (hz : z.toNat + 256 * k = x.toNat + y.toNat + c) :
    ((x ^^^ z) &&& (y ^^^ z) &&& 0x80 != 0) = true ↔
      ¬ Representable 1 (signed 1 x.toNat + signed 1 y.toNat + c) := by
  have hx := x.toNat_lt
  have hy := y.toNat_lt
  have hz' := z.toNat_lt
  rw [topBit_and, topBit_xor, topBit_xor, topBit_eq, topBit_eq, topBit_eq]
  simp only [signed, Representable, pow_one, bmod_of_lt hx, bmod_of_lt hy, Bool.and_eq_true,
    bne_iff_ne, ne_eq, decide_eq_decide]
  omega

namespace Registers

variable (r : Registers) (v : UInt8)

theorem loadA_carry : (r.loadA v).status.has .carry = r.status.has .carry := by
  simp [loadA, Status.has_withResult]

theorem addWithCarry_value :
    let s := r.addWithCarry v
    s.a.toNat + 256 * (s.status.has .carry).toNat =
      r.a.toNat + v.toNat + (r.status.has .carry).toNat := by
  have ha := r.a.toNat_lt
  have hv := v.toNat_lt
  have hc := (r.status.has .carry).toNat_le
  simp only [addWithCarry, loadA, putFlag, Status.has_withResult, Status.has_put, reduceCtorEq,
    if_false, if_true, UInt8.toNat_ofNat']
  by_cases hsum : r.a.toNat + v.toNat + (r.status.has .carry).toNat > 0xFF
  · rw [decide_eq_true hsum, Bool.toNat_true]
    omega
  · rw [decide_eq_false hsum, Bool.toNat_false]
    omega

theorem addWithCarry_overflow :
    (r.addWithCarry v).status.has .overflow = true ↔
      ¬ Representable 1
        (signed 1 r.a.toNat + signed 1 v.toNat + (r.status.has .carry).toNat) := by
  have hov : (r.addWithCarry v).status.has .overflow =
      ((r.a ^^^ (r.addWithCarry v).a) &&& (v ^^^ (r.addWithCarry v).a) &&& 0x80 != 0) := by
    simp [addWithCarry, loadA, putFlag, Status.has_withResult, Status.has_put]
  rw [hov]
  exact overflow_iff (r.status.has .carry).toNat_le (r.addWithCarry_value v)

end Registers

end Cpu6502
