import Cpu6502.Bus
import Cpu6502.Fault

/-!
A program image: bytes mapped read-only from address zero. An image leaves at least one address
unmapped, so a program counter that runs off its end meets a hole before it wraps. Raw reads past
the end give zero.
-/

namespace Cpu6502

structure Image where
  bytes : Array UInt8
  size_le : bytes.size ≤ 0xFFFF

namespace Image

def ofBytes (bytes : Array UInt8) : Except Fault Image :=
  if h : bytes.size ≤ 0xFFFF then .ok ⟨bytes, h⟩ else .error (.programTooLarge bytes.size)

def size (m : Image) : Nat := m.bytes.size

def isEmpty (m : Image) : Bool := m.bytes.isEmpty

def read (m : Image) (a : UInt16) : UInt8 := m.bytes[a.toNat]?.getD 0

def mapped (m : Image) (a : UInt16) : Bool := a.toNat < m.size

/-- An image takes no write: a raw one is dropped and reported. -/
def bus : Bus Image where
  read := read
  write m _ _ := m
  mapped := mapped
  writable _ _ := false
  report _ a v := [.droppedWrite a v]

theorem size_lt (m : Image) : m.size < 65536 := Nat.lt_succ_of_le m.size_le

variable {m : Image} {a : UInt16}

theorem mapped_iff : m.mapped a = true ↔ a.toNat < m.size := by simp [mapped]

theorem getElem?_of_mapped (h : m.mapped a = true) : m.bytes[a.toNat]? = some (m.read a) := by
  have hlt : a.toNat < m.bytes.size := mapped_iff.mp h
  rw [read, Array.getElem?_eq_getElem hlt, Option.getD_some]

theorem toNat_succ (h : m.mapped a = true) : (a + 1).toNat = a.toNat + 1 := by
  have hlt := mapped_iff.mp h
  have ha : a.toNat < 0xFFFF := Nat.lt_of_lt_of_le hlt m.size_le
  rw [UInt16.toNat_add, UInt16.toNat_one]
  omega

end Image

end Cpu6502
