/-!
Words, their two bytes, and the address arithmetic of the processor. All of it wraps, each kind
at its own width: a pointer in its page, the stack in page one, a branch anywhere.
-/

namespace Cpu6502

def wordOf (lo hi : UInt8) : UInt16 := hi.toUInt16 <<< 8 ||| lo.toUInt16

def lowByte (w : UInt16) : UInt8 := w.toUInt8

def highByte (w : UInt16) : UInt8 := (w >>> 8).toUInt8

def stackAddress (sp : UInt8) : UInt16 := 0x0100 ||| sp.toUInt16

def branchTarget (pc : UInt16) (offset : UInt8) : UInt16 := pc + offset.toInt8.toInt16.toUInt16

/-- The address after `w` without a carry into the high byte. -/
def nextInPage (w : UInt16) : UInt16 := wordOf (lowByte w + 1) (highByte w)

theorem add_ofNat_succ (a : UInt16) (n : Nat) :
    a + UInt16.ofNat (n + 1) = a + 1 + UInt16.ofNat n := by
  rw [UInt16.ofNat_add]
  grind

theorem toNat_wordOf (lo hi : UInt8) : (wordOf lo hi).toNat = 256 * hi.toNat + lo.toNat := by
  have hl := lo.toNat_lt
  have hh := hi.toNat_lt
  have hs : hi.toNat <<< 8 % 2 ^ 16 = hi.toNat <<< 8 := by
    apply Nat.mod_eq_of_lt
    rw [Nat.shiftLeft_eq]
    omega
  simp only [wordOf, UInt16.toNat_or, UInt16.toNat_shiftLeft, UInt8.toNat_toUInt16]
  change hi.toNat <<< 8 % 2 ^ 16 ||| lo.toNat = _
  rw [hs, ← Nat.shiftLeft_add_eq_or_of_lt hl, Nat.shiftLeft_eq]
  omega

theorem toNat_lowByte (w : UInt16) : (lowByte w).toNat = w.toNat % 256 := by simp [lowByte]

theorem toNat_highByte (w : UInt16) : (highByte w).toNat = w.toNat / 256 := by
  have hw := w.toNat_lt
  simp only [highByte, UInt16.toNat_toUInt8, UInt16.toNat_shiftRight]
  change w.toNat >>> 8 % 2 ^ 8 = _
  rw [Nat.shiftRight_eq_div_pow]
  omega

theorem wordOf_bytes (w : UInt16) : wordOf (lowByte w) (highByte w) = w := by
  apply UInt16.toNat_inj.mp
  rw [toNat_wordOf, toNat_lowByte, toNat_highByte]
  omega

theorem lowByte_wordOf (lo hi : UInt8) : lowByte (wordOf lo hi) = lo := by
  have hl := lo.toNat_lt
  apply UInt8.toNat_inj.mp
  rw [toNat_lowByte, toNat_wordOf]
  omega

theorem highByte_wordOf (lo hi : UInt8) : highByte (wordOf lo hi) = hi := by
  have hl := lo.toNat_lt
  apply UInt8.toNat_inj.mp
  rw [toNat_highByte, toNat_wordOf]
  omega

theorem toNat_stackAddress (sp : UInt8) : (stackAddress sp).toNat = 256 + sp.toNat := by
  simp only [stackAddress, UInt16.toNat_or, UInt8.toNat_toUInt16]
  exact (Nat.two_pow_add_eq_or_of_lt sp.toNat_lt 1).symm

theorem toNat_nextInPage (w : UInt16) :
    (nextInPage w).toNat = 256 * (w.toNat / 256) + (w.toNat + 1) % 256 := by
  rw [nextInPage, toNat_wordOf, toNat_highByte, UInt8.toNat_add, toNat_lowByte]
  simp only [UInt8.toNat_one]
  omega

end Cpu6502
