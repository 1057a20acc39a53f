import Cpu6502.Arithmetic
import Cpu6502.Operand

/-!
The instruction set by what instructions do. Fifty-six mnemonics perform twelve kinds of action:
an operand is consumed or a register stored, a branch is taken if its flag is as wanted, and so
on. Which accesses an instruction makes, and in which order, depends on its action and mode alone.
-/

namespace Cpu6502

inductive Step where
  | proceed
  | halt
deriving DecidableEq

inductive Action where
  | consume (effect : Registers → UInt8 → Registers)
  | store (source : Registers → UInt8)
  | modify (change : Modification)
  | internal (effect : Registers → Registers)
  | push (source : Registers → UInt8)
  | pull (effect : Registers → UInt8 → Registers)
  | branch (flag : Flag) (wanted : Bool)
  | jump
  | call
  | returnFromCall
  | returnFromInterrupt
  | halt

def Mnemonic.action : Mnemonic → Action
  | .lda => .consume .loadA
  | .ldx => .consume .loadX
  | .ldy => .consume .loadY
  | .adc => .consume .addWithCarry
  | .sbc => .consume .subtractWithCarry
  | .and => .consume fun r v => r.loadA (r.a &&& v)
  | .ora => .consume fun r v => r.loadA (r.a ||| v)
  | .eor => .consume fun r v => r.loadA (r.a ^^^ v)
  | .cmp => .consume fun r v => r.compare r.a v
  | .cpx => .consume fun r v => r.compare r.x v
  | .cpy => .consume fun r v => r.compare r.y v
  | .bit => .consume .bitTest
  | .sta => .store (·.a)
  | .stx => .store (·.x)
  | .sty => .store (·.y)
  | .inc => .modify .increment
  | .dec => .modify .decrement
  | .asl => .modify .shiftLeft
  | .lsr => .modify .shiftRight
  | .rol => .modify .rotateLeft
  | .ror => .modify .rotateRight
  | .tax => .internal fun r => r.loadX r.a
  | .tay => .internal fun r => r.loadY r.a
  | .txa => .internal fun r => r.loadA r.x
  | .tya => .internal fun r => r.loadA r.y
  | .tsx => .internal fun r => r.loadX r.sp
  | .txs => .internal fun r => { r with sp := r.x }
  | .inx => .internal fun r => r.loadX (r.x + 1)
  | .iny => .internal fun r => r.loadY (r.y + 1)
  | .dex => .internal fun r => r.loadX (r.x - 1)
  | .dey => .internal fun r => r.loadY (r.y - 1)
  | .clc => .internal (·.putFlag .carry false)
  | .sec => .internal (·.putFlag .carry true)
  | .cli => .internal (·.putFlag .interruptDisable false)
  | .sei => .internal (·.putFlag .interruptDisable true)
  | .cld => .internal (·.putFlag .decimal false)
  | .sed => .internal (·.putFlag .decimal true)
  | .clv => .internal (·.putFlag .overflow false)
  | .nop => .internal id
  | .pha => .push (·.a)
  | .php => .push (·.status.toStack)
  | .pla => .pull .loadA
  | .plp => .pull fun r v => { r with status := .ofStack v }
  | .bcc => .branch .carry false
  | .bcs => .branch .carry true
  | .bne => .branch .zero false
  | .beq => .branch .zero true
  | .bpl => .branch .negative false
  | .bmi => .branch .negative true
  | .bvc => .branch .overflow false
  | .bvs => .branch .overflow true
  | .jmp => .jump
  | .jsr => .call
  | .rts => .returnFromCall
  | .rti => .returnFromInterrupt
  | .brk => .halt

namespace Action

open Micro

/-- A byte in memory is read, then its own flags are set, then it is written back; zero and negative
follow only when the write has landed. -/
def perform (mode : AddressingMode) : Action → Micro Step
  | .consume effect => do
      let v ← operand mode
      update (effect · v)
      return .proceed
  | .store source => do
      let addr ← effectiveAddress mode
      write addr (source (← registers))
      return .proceed
  | .modify change =>
      match mode with
      | .accumulator => do
          update fun r =>
            Registers.loadA { r with status := change.flags r.status r.a }
              (change.byte r.status r.a)
          return .proceed
      | _ => do
          let addr ← effectiveAddress mode
          let old ← read addr
          let status := (← registers).status
          update fun r => { r with status := change.flags status old }
          write addr (change.byte status old)
          update fun r => { r with status := r.status.withResult (change.byte status old) }
          return .proceed
  | .internal effect => do
      update effect
      return .proceed
  | .push source => do
      Micro.push (source (← registers))
      return .proceed
  | .pull effect => do
      let v ← Micro.pull
      update (effect · v)
      return .proceed
  | .branch flag wanted => do
      let target ← effectiveAddress mode
      update fun r => if r.status.has flag = wanted then { r with pc := target } else r
      return .proceed
  | .jump => do
      let target ← effectiveAddress mode
      update fun r => { r with pc := target }
      return .proceed
  | .call => do
      let target ← effectiveAddress mode
      pushWord ((← registers).pc - 1)
      update fun r => { r with pc := target }
      return .proceed
  | .returnFromCall => do
      let w ← pullWord
      update fun r => { r with pc := w + 1 }
      return .proceed
  | .returnFromInterrupt => do
      let v ← Micro.pull
      update fun r => { r with status := .ofStack v }
      let w ← pullWord
      update fun r => { r with pc := w }
      return .proceed
  | .halt => do
      note (.halted ((← registers).pc - 1))
      return .halt

end Action

def Instruction.perform (i : Instruction) : Micro Step := i.mnemonic.action.perform i.mode

end Cpu6502
