import Cpu6502.Hex
import Cpu6502.Status

/-!
The register file and its two texts: one for inspection, and the one that is logged, which
leaves out the program counter.
-/

namespace Cpu6502

structure Registers where
  a : UInt8
  x : UInt8
  y : UInt8
  status : Status
  sp : UInt8
  pc : UInt16
deriving DecidableEq

namespace Registers

def powerOn : Registers := ⟨0, 0, 0, Status.powerOn, 0, 0⟩

def describe (r : Registers) : String :=
  s!"ProcessorState \x7b a: {r.a.toNat}, x: {r.x.toNat}, y: {r.y.toNat}, " ++
    s!"status: {r.status.describe}, sp: {r.sp.toNat}, pc: {r.pc.toNat} \x7d"

def summary (r : Registers) : String :=
  s!"A:{Hex.byte r.a} X:{Hex.byte r.x} Y:{Hex.byte r.y} " ++
    s!"P:{Hex.byte r.status.bits} SP:{Hex.byte r.sp}"

end Registers

end Cpu6502
