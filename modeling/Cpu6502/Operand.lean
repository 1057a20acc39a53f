import Cpu6502.Microcode

/-!
How each addressing mode finds its operand. Operand bytes are fetched as they are needed, and a
pointer is read low byte first.
-/

namespace Cpu6502.Micro

def readPointer (p : UInt16) : Micro UInt16 := do
  let lo ← read p
  let hi ← read (nextInPage p)
  return wordOf lo hi

/-- Consumes the operand bytes and gives the address they denote: for an immediate operand its own
address, for a relative one the target of the branch. -/
def effectiveAddress : AddressingMode → Micro UInt16
  | .immediate => do
      let addr := (← registers).pc
      let _ ← fetch
      return addr
  | .zeroPage => do return (← fetch).toUInt16
  | .zeroPageX => do return ((← fetch) + (← registers).x).toUInt16
  | .zeroPageY => do return ((← fetch) + (← registers).y).toUInt16
  | .relative => do
      let offset ← fetch
      return branchTarget (← registers).pc offset
  | .absolute => fetchWord
  | .absoluteX => do return (← fetchWord) + (← registers).x.toUInt16
  | .absoluteY => do return (← fetchWord) + (← registers).y.toUInt16
  | .indirect => do readPointer (← fetchWord)
  | .indirectX => do readPointer ((← fetch) + (← registers).x).toUInt16
  | .indirectY => do return (← readPointer (← fetch).toUInt16) + (← registers).y.toUInt16
  | .implicit => raise (.noEffectiveAddress .implicit)
  | .accumulator => raise (.noEffectiveAddress .accumulator)

def operand : AddressingMode → Micro UInt8
  | .immediate => fetch
  | .accumulator => do return (← registers).a
  | mode => do read (← effectiveAddress mode)

end Cpu6502.Micro
