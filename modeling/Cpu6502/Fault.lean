import Cpu6502.AddressingMode
import Cpu6502.Hex

/-!
The causes that stop execution, each with its one wording.
-/

namespace Cpu6502

inductive Fault where
  | outOfBounds (addr : UInt16)
  | unimplementedOpcode (code : UInt8)
  | noEffectiveAddress (mode : AddressingMode)
  | programTooLarge (length : Nat)
deriving DecidableEq

namespace Fault

def message : Fault → String
  | .outOfBounds addr => s!"access to unmapped address 0x{Hex.word addr}"
  | .unimplementedOpcode code => s!"opcode 0x{Hex.byte code} is not implemented"
  | .noEffectiveAddress mode => s!"addressing mode {mode.name} has no effective address"
  | .programTooLarge length =>
      s!"program image of {length} bytes does not fit the 16-bit address space"

def describe : Fault → String
  | .outOfBounds addr => s!"OutOfBounds \x7b addr: {addr.toNat} \x7d"
  | .unimplementedOpcode code => s!"UnimplementedOpcode({code.toNat})"
  | .noEffectiveAddress mode => s!"NoEffectiveAddress({mode.name})"
  | .programTooLarge length => s!"ProgramTooLarge \x7b len: {length} \x7d"

end Fault

end Cpu6502
