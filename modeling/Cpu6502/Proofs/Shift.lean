import Cpu6502.Action
import Cpu6502.Proofs.AddWithCarry

/-!
Shifts of a byte by one place. The bit that falls out at one end is the new carry, and a rotation takes
the old one in at the other end, so a shift doubles or halves a number that continues in the carry
(`Shift.left_value`, `Shift.right_value`). A rotation turns the nine bits of the carry and the byte by one
place (`Shift.rotation_ring`), and turns add up (`rotateLeft_add`).
-/

namespace Cpu6502

inductive Direction where
  | left
  | right
deriving DecidableEq

/-- A shift by one place, which is a rotation if it goes `through` the carry. -/
structure Shift where
  direction : Direction
  through : Bool

namespace Shift

def mnemonic : Shift → Mnemonic
  | ⟨.left, false⟩ => .asl
  | ⟨.left, true⟩ => .rol
  | ⟨.right, false⟩ => .lsr
  | ⟨.right, true⟩ => .ror

def change : Shift → Modification
  | ⟨.left, false⟩ => .shiftLeft
  | ⟨.left, true⟩ => .rotateLeft
  | ⟨.right, false⟩ => .shiftRight
  | ⟨.right, true⟩ => .rotateRight

def carryIn (s : Shift) (p : Status) : Bool := s.through && p.has .carry

theorem action_eq (s : Shift) : s.mnemonic.action = .modify s.change := by
  obtain ⟨direction, through⟩ := s
  cases direction <;> cases through <;> rfl

theorem toNat_left (v : UInt8) (on : Bool) :
    (v <<< 1 ||| on.toUInt8).toNat = 2 * v.toNat % 256 + on.toNat := by
  have hshift : (v <<< 1).toNat = (v.toNat % 128) <<< 1 := by
    rw [UInt8.toNat_shiftLeft, Nat.shiftLeft_eq, Nat.shiftLeft_eq]
    change v.toNat * 2 ^ 1 % 2 ^ 8 = _
    omega
  have hon : on.toUInt8.toNat = on.toNat := by cases on <;> rfl
  rw [UInt8.toNat_or, hshift, hon, ← Nat.shiftLeft_add_eq_or_of_lt (by cases on <;> decide),
    Nat.shiftLeft_eq]
  omega

theorem toNat_right (v : UInt8) (on : Bool) :
    (v >>> 1 ||| on.toUInt8 <<< 7).toNat = v.toNat / 2 + 128 * on.toNat := by
  have hv := v.toNat_lt
  have hshift : (v >>> 1).toNat = v.toNat / 2 := by
    rw [UInt8.toNat_shiftRight, Nat.shiftRight_eq_div_pow]
    rfl
  have hon : (on.toUInt8 <<< 7).toNat = on.toNat <<< 7 := by cases on <;> rfl
  rw [UInt8.toNat_or, hshift, hon, Nat.or_comm, ← Nat.shiftLeft_add_eq_or_of_lt (by omega),
    Nat.shiftLeft_eq]
  omega

theorem lowBit_eq (v : UInt8) : (v &&& 0x01 != 0) = decide (v.toNat % 2 = 1) := by
  have hand : (v &&& 0x01).toNat = v.toNat % 2 := Nat.and_one_is_mod v.toNat
  have hzero : v &&& 0x01 = 0 ↔ (v &&& 0x01).toNat = 0 := UInt8.toNat_inj.symm
  rw [bne, Bool.eq_iff_iff, Bool.not_eq_true', beq_eq_false_iff_ne, Ne, hzero, hand, decide_eq_true_iff]
  omega

variable (p : Status) (v : UInt8) (through : Bool)

theorem left_value :
    let s : Shift := ⟨.left, through⟩
    (s.change.byte p v).toNat + 256 * ((s.change.flags p v).has .carry).toNat =
      2 * v.toNat + (s.carryIn p).toNat := by
  intro s
  have hv := v.toNat_lt
  have hin := (s.carryIn p).toNat_le
  have hbyte : s.change.byte p v = v <<< 1 ||| (s.carryIn p).toUInt8 := by
    cases through with
    | false => exact (UInt8.or_zero).symm
    | true => rfl
  have hcarry : (s.change.flags p v).has .carry = decide (128 ≤ v.toNat) := by
    rw [← topBit_eq]
    cases through <;> exact (Status.has_put _ _ _ _).trans (if_pos rfl)
  rw [hbyte, hcarry, toNat_left]
  by_cases htop : 128 ≤ v.toNat
  · rw [decide_eq_true htop, Bool.toNat_true]
    omega
  · rw [decide_eq_false htop, Bool.toNat_false]
    omega

theorem right_value :
    let s : Shift := ⟨.right, through⟩
    2 * (s.change.byte p v).toNat + ((s.change.flags p v).has .carry).toNat =
      v.toNat + 256 * (s.carryIn p).toNat := by
  intro s
  have hbyte : s.change.byte p v = v >>> 1 ||| (s.carryIn p).toUInt8 <<< 7 := by
    cases through with
    | false => exact (UInt8.or_zero).symm
    | true => rfl
  have hcarry : (s.change.flags p v).has .carry = decide (v.toNat % 2 = 1) := by
    rw [← lowBit_eq]
    cases through <;> exact (Status.has_put _ _ _ _).trans (if_pos rfl)
  rw [hbyte, hcarry, toNat_right]
  by_cases hlow : v.toNat % 2 = 1
  · rw [decide_eq_true hlow, Bool.toNat_true]
    omega
  · rw [decide_eq_false hlow, Bool.toNat_false]
    omega

theorem flags_other (s : Shift) {f : Flag} (hf : f ≠ .carry) : (s.change.flags p v).has f = p.has f := by
  obtain ⟨direction, through⟩ := s
  cases direction <;> cases through <;> exact (Status.has_put _ _ _ _).trans (if_neg hf.symm)

end Shift

def Status.ring (p : Status) (v : UInt8) : BitVec 9 :=
  BitVec.ofNat 9 (256 * (p.has .carry).toNat + v.toNat)

theorem Status.toNat_ring (p : Status) (v : UInt8) :
    (p.ring v).toNat = 256 * (p.has .carry).toNat + v.toNat := by
  have hv := v.toNat_lt
  have hc := (p.has .carry).toNat_le
  rw [ring, BitVec.toNat_ofNat]
  exact Nat.mod_eq_of_lt (by omega)

section Ring

variable (x : BitVec 9)

theorem getLsbD_turned (r : Nat) {i : Nat} (hi : i < 9) :
    (x.rotateLeft r).getLsbD i = x.getLsbD ((i + 9 - r % 9) % 9) := by
  rw [BitVec.getLsbD_rotateLeft]
  by_cases hr : i < r % 9
  · rw [decide_eq_true hr, cond_true]
    congr 1
    omega
  · rw [decide_eq_false hr, decide_eq_true hi, cond_false, Bool.true_and]
    congr 1
    omega

theorem rotateLeft_zero : x.rotateLeft 0 = x := by
  apply BitVec.eq_of_getLsbD_eq
  intro i hi
  rw [getLsbD_turned x 0 hi]
  congr 1
  omega

theorem rotateLeft_add (j k : Nat) : (x.rotateLeft j).rotateLeft k = x.rotateLeft (j + k) := by
  apply BitVec.eq_of_getLsbD_eq
  intro i hi
  rw [getLsbD_turned _ k hi, getLsbD_turned _ j (by omega), getLsbD_turned _ (j + k) hi]
  congr 1
  omega

theorem toNat_turned_left : (x.rotateLeft 1).toNat = 2 * x.toNat % 512 + x.toNat / 256 := by
  have hx := x.isLt
  have hshift : x.toNat <<< (1 % 9) % 2 ^ 9 = (x.toNat % 256) <<< 1 := by
    rw [Nat.shiftLeft_eq, Nat.shiftLeft_eq]
    change x.toNat * 2 ^ 1 % 2 ^ 9 = _
    omega
  have hhigh : x.toNat >>> (9 - 1 % 9) = x.toNat / 256 := Nat.shiftRight_eq_div_pow x.toNat 8
  rw [BitVec.toNat_rotateLeft, hshift, hhigh, ← Nat.shiftLeft_add_eq_or_of_lt (by omega),
    Nat.shiftLeft_eq]
  omega

theorem toNat_turned_right : (x.rotateLeft 8).toNat = x.toNat / 2 + 256 * (x.toNat % 2) := by
  have hx := x.isLt
  have hshift : x.toNat <<< (8 % 9) % 2 ^ 9 = (x.toNat % 2) <<< 8 := by
    rw [Nat.shiftLeft_eq, Nat.shiftLeft_eq]
    change x.toNat * 2 ^ 8 % 2 ^ 9 = _
    omega
  have hlow : x.toNat >>> (9 - 8 % 9) = x.toNat / 2 := Nat.shiftRight_eq_div_pow x.toNat 1
  rw [BitVec.toNat_rotateLeft, hshift, hlow, ← Nat.shiftLeft_add_eq_or_of_lt (by omega),
    Nat.shiftLeft_eq]
  omega

end Ring

def Direction.places : Direction → Nat
  | .left => 1
  | .right => 8

theorem Shift.rotation_ring (d : Direction) (p : Status) (v : UInt8) :
    let s : Shift := ⟨d, true⟩
    (s.change.flags p v).ring (s.change.byte p v) = (p.ring v).rotateLeft d.places := by
  intro s
  have hv := v.toNat_lt
  have hin := (p.has .carry).toNat_le
  apply BitVec.eq_of_toNat_eq
  cases d with
  | left =>
    have hvalue : (s.change.byte p v).toNat + 256 * ((s.change.flags p v).has .carry).toNat =
        2 * v.toNat + (p.has .carry).toNat := left_value p v true
    have hlow : 2 * (256 * (p.has .carry).toNat + v.toNat) % 512 = 2 * v.toNat := by omega
    have hhigh : (256 * (p.has .carry).toNat + v.toNat) / 256 = (p.has .carry).toNat := by omega
    rw [Direction.places, toNat_turned_left, Status.toNat_ring, Status.toNat_ring, hlow, hhigh,
      ← hvalue, Nat.add_comm]
  | right =>
    have hvalue : 2 * (s.change.byte p v).toNat + ((s.change.flags p v).has .carry).toNat =
        v.toNat + 256 * (p.has .carry).toNat := right_value p v true
    have hout := ((s.change.flags p v).has .carry).toNat_le
    rw [Direction.places, toNat_turned_right, Status.toNat_ring, Status.toNat_ring]
    omega

end Cpu6502
