import Cpu6502.Registers

/-!
What instructions do to the registers once their operand is known. Decimal mode has no effect:
all arithmetic is binary.
-/

namespace Cpu6502

namespace Registers

def loadA (r : Registers) (v : UInt8) : Registers :=
  { r with a := v, status := r.status.withResult v }

def loadX (r : Registers) (v : UInt8) : Registers :=
  { r with x := v, status := r.status.withResult v }

def loadY (r : Registers) (v : UInt8) : Registers :=
  { r with y := v, status := r.status.withResult v }

def putFlag (r : Registers) (f : Flag) (on : Bool) : Registers :=
  { r with status := r.status.put f on }

/-- Carry is the ninth bit of the sum. Overflow says that the two addends have one sign and
the result has the other. -/
def addWithCarry (r : Registers) (v : UInt8) : Registers :=
  let sum := r.a.toNat + v.toNat + (r.status.has .carry).toNat
  let result := UInt8.ofNat sum
  ((r.putFlag .carry (sum > 0xFF)).putFlag .overflow
    ((r.a ^^^ result) &&& (v ^^^ result) &&& 0x80 != 0)).loadA result

/-- Subtraction adds the complement, so that a set carry means no borrow. -/
def subtractWithCarry (r : Registers) (v : UInt8) : Registers := r.addWithCarry (~~~v)

def compare (r : Registers) (u v : UInt8) : Registers :=
  { r with status := (r.status.put .carry (v ≤ u)).withResult (u - v) }

def bitTest (r : Registers) (v : UInt8) : Registers :=
  ((r.putFlag .zero (r.a &&& v == 0)).putFlag .overflow (v &&& 0x40 != 0)).putFlag .negative
    (v &&& 0x80 != 0)

end Registers

/-- A change of one byte: what it becomes, and the flags that are set before zero and negative
describe it. Both may depend on the status as it was. -/
structure Modification where
  byte : Status → UInt8 → UInt8
  flags : Status → UInt8 → Status := fun s _ => s

namespace Modification

def increment : Modification where
  byte _ v := v + 1

def decrement : Modification where
  byte _ v := v - 1

def shiftLeft : Modification where
  byte _ v := v <<< 1
  flags s v := s.put .carry (v &&& 0x80 != 0)

def shiftRight : Modification where
  byte _ v := v >>> 1
  flags s v := s.put .carry (v &&& 0x01 != 0)

def rotateLeft : Modification where
  byte s v := v <<< 1 ||| (s.has .carry).toUInt8
  flags s v := s.put .carry (v &&& 0x80 != 0)

def rotateRight : Modification where
  byte s v := v >>> 1 ||| (s.has .carry).toUInt8 <<< 7
  flags s v := s.put .carry (v &&& 0x01 != 0)

end Modification

end Cpu6502
