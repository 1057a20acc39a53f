/-!
The thirteen addressing modes, which say what the bytes after an opcode mean.
-/

namespace Cpu6502

inductive AddressingMode where
  | implicit
  | accumulator
  | immediate
  | zeroPage
  | zeroPageX
  | zeroPageY
  | relative
  | absolute
  | absoluteX
  | absoluteY
  | indirect
  | indirectX
  | indirectY
deriving DecidableEq

namespace AddressingMode

def all : List AddressingMode :=
  [.implicit, .accumulator, .immediate, .zeroPage, .zeroPageX, .zeroPageY, .relative,
    .absolute, .absoluteX, .absoluteY, .indirect, .indirectX, .indirectY]

def name : AddressingMode → String
  | .implicit => "Implicit"
  | .accumulator => "Accumulator"
  | .immediate => "Immediate"
  | .zeroPage => "ZeroPage"
  | .zeroPageX => "ZeroPageX"
  | .zeroPageY => "ZeroPageY"
  | .relative => "Relative"
  | .absolute => "Absolute"
  | .absoluteX => "AbsoluteX"
  | .absoluteY => "AbsoluteY"
  | .indirect => "Indirect"
  | .indirectX => "IndirectX"
  | .indirectY => "IndirectY"

def ofName? (s : String) : Option AddressingMode := all.find? (·.name == s)

def operandBytes : AddressingMode → Nat
  | .implicit | .accumulator => 0
  | .immediate | .zeroPage | .zeroPageX | .zeroPageY | .relative | .indirectX | .indirectY => 1
  | .absolute | .absoluteX | .absoluteY | .indirect => 2

theorem mem_all (mode : AddressingMode) : mode ∈ all := by cases mode <;> decide

end AddressingMode

end Cpu6502
