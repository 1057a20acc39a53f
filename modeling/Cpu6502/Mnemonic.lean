import Cpu6502.AddressingMode
import Cpu6502.Status

/-!
The documented instructions by name: which flags each may change, and under which opcodes
it is encoded. Every instruction changes the same flags in all of its modes.
-/

namespace Cpu6502

inductive Mnemonic where
  | lda | ldx | ldy | sta | stx | sty | tax | tay | txa | tya | tsx | txs | pha
  | php | pla | plp | adc | sbc | and | ora | eor | cmp | cpx | cpy | bit | inc
  | dec | inx | iny | dex | dey | asl | lsr | rol | ror | bcc | bcs | beq | bne
  | bmi | bpl | bvc | bvs | jmp | jsr | rts | rti | brk | nop | clc | sec | cli
  | sei | cld | sed | clv
deriving DecidableEq

namespace Mnemonic

def all : List Mnemonic :=
  [.lda, .ldx, .ldy, .sta, .stx, .sty, .tax, .tay, .txa, .tya, .tsx, .txs, .pha, .php, .pla,
    .plp, .adc, .sbc, .and, .ora, .eor, .cmp, .cpx, .cpy, .bit, .inc, .dec, .inx, .iny, .dex,
    .dey, .asl, .lsr, .rol, .ror, .bcc, .bcs, .beq, .bne, .bmi, .bpl, .bvc, .bvs, .jmp, .jsr,
    .rts, .rti, .brk, .nop, .clc, .sec, .cli, .sei, .cld, .sed, .clv]

def name : Mnemonic → String
  | .lda => "LDA"
  | .ldx => "LDX"
  | .ldy => "LDY"
  | .sta => "STA"
  | .stx => "STX"
  | .sty => "STY"
  | .tax => "TAX"
  | .tay => "TAY"
  | .txa => "TXA"
  | .tya => "TYA"
  | .tsx => "TSX"
  | .txs => "TXS"
  | .pha => "PHA"
  | .php => "PHP"
  | .pla => "PLA"
  | .plp => "PLP"
  | .adc => "ADC"
  | .sbc => "SBC"
  | .and => "AND"
  | .ora => "ORA"
  | .eor => "EOR"
  | .cmp => "CMP"
  | .cpx => "CPX"
  | .cpy => "CPY"
  | .bit => "BIT"
  | .inc => "INC"
  | .dec => "DEC"
  | .inx => "INX"
  | .iny => "INY"
  | .dex => "DEX"
  | .dey => "DEY"
  | .asl => "ASL"
  | .lsr => "LSR"
  | .rol => "ROL"
  | .ror => "ROR"
  | .bcc => "BCC"
  | .bcs => "BCS"
  | .beq => "BEQ"
  | .bne => "BNE"
  | .bmi => "BMI"
  | .bpl => "BPL"
  | .bvc => "BVC"
  | .bvs => "BVS"
  | .jmp => "JMP"
  | .jsr => "JSR"
  | .rts => "RTS"
  | .rti => "RTI"
  | .brk => "BRK"
  | .nop => "NOP"
  | .clc => "CLC"
  | .sec => "SEC"
  | .cli => "CLI"
  | .sei => "SEI"
  | .cld => "CLD"
  | .sed => "SED"
  | .clv => "CLV"

/-- The flags an instruction may change; it leaves every other flag as it was. -/
def affects : Mnemonic → List Flag
  | .lda | .ldx | .ldy | .tax | .tay | .txa | .tya | .tsx | .pla | .and | .ora | .eor
  | .inc | .dec | .inx | .iny | .dex | .dey => [.zero, .negative]
  | .sta | .stx | .sty | .txs | .pha | .php | .bcc | .bcs | .beq | .bne | .bmi | .bpl
  | .bvc | .bvs | .jmp | .jsr | .rts | .brk | .nop => []
  | .plp | .rti => Flag.all
  | .adc | .sbc => [.carry, .zero, .overflow, .negative]
  | .cmp | .cpx | .cpy | .asl | .lsr | .rol | .ror => [.carry, .zero, .negative]
  | .bit => [.zero, .overflow, .negative]
  | .clc | .sec => [.carry]
  | .cli | .sei => [.interruptDisable]
  | .cld | .sed => [.decimal]
  | .clv => [.overflow]

def encodings : Mnemonic → List (UInt8 × AddressingMode)
  | .lda => [(0xA9, .immediate), (0xA5, .zeroPage), (0xB5, .zeroPageX), (0xAD, .absolute),
      (0xBD, .absoluteX), (0xB9, .absoluteY), (0xA1, .indirectX), (0xB1, .indirectY)]
  | .ldx => [(0xA2, .immediate), (0xA6, .zeroPage), (0xB6, .zeroPageY), (0xAE, .absolute),
      (0xBE, .absoluteY)]
  | .ldy => [(0xA0, .immediate), (0xA4, .zeroPage), (0xB4, .zeroPageX), (0xAC, .absolute),
      (0xBC, .absoluteX)]
  | .sta => [(0x85, .zeroPage), (0x95, .zeroPageX), (0x8D, .absolute), (0x9D, .absoluteX),
      (0x99, .absoluteY), (0x81, .indirectX), (0x91, .indirectY)]
  | .stx => [(0x86, .zeroPage), (0x96, .zeroPageY), (0x8E, .absolute)]
  | .sty => [(0x84, .zeroPage), (0x94, .zeroPageX), (0x8C, .absolute)]
  | .tax => [(0xAA, .implicit)]
  | .tay => [(0xA8, .implicit)]
  | .txa => [(0x8A, .implicit)]
  | .tya => [(0x98, .implicit)]
  | .tsx => [(0xBA, .implicit)]
  | .txs => [(0x9A, .implicit)]
  | .pha => [(0x48, .implicit)]
  | .php => [(0x08, .implicit)]
  | .pla => [(0x68, .implicit)]
  | .plp => [(0x28, .implicit)]
  | .adc => [(0x69, .immediate), (0x65, .zeroPage), (0x75, .zeroPageX), (0x6D, .absolute),
      (0x7D, .absoluteX), (0x79, .absoluteY), (0x61, .indirectX), (0x71, .indirectY)]
  | .sbc => [(0xE9, .immediate), (0xE5, .zeroPage), (0xF5, .zeroPageX), (0xED, .absolute),
      (0xFD, .absoluteX), (0xF9, .absoluteY), (0xE1, .indirectX), (0xF1, .indirectY)]
  | .and => [(0x29, .immediate), (0x25, .zeroPage), (0x35, .zeroPageX), (0x2D, .absolute),
      (0x3D, .absoluteX), (0x39, .absoluteY), (0x21, .indirectX), (0x31, .indirectY)]
  | .ora => [(0x09, .immediate), (0x05, .zeroPage), (0x15, .zeroPageX), (0x0D, .absolute),
      (0x1D, .absoluteX), (0x19, .absoluteY), (0x01, .indirectX), (0x11, .indirectY)]
  | .eor => [(0x49, .immediate), (0x45, .zeroPage), (0x55, .zeroPageX), (0x4D, .absolute),
      (0x5D, .absoluteX), (0x59, .absoluteY), (0x41, .indirectX), (0x51, .indirectY)]
  | .cmp => [(0xC9, .immediate), (0xC5, .zeroPage), (0xD5, .zeroPageX), (0xCD, .absolute),
      (0xDD, .absoluteX), (0xD9, .absoluteY), (0xC1, .indirectX), (0xD1, .indirectY)]
  | .cpx => [(0xE0, .immediate), (0xE4, .zeroPage), (0xEC, .absolute)]
  | .cpy => [(0xC0, .immediate), (0xC4, .zeroPage), (0xCC, .absolute)]
  | .bit => [(0x24, .zeroPage), (0x2C, .absolute)]
  | .inc => [(0xE6, .zeroPage), (0xF6, .zeroPageX), (0xEE, .absolute), (0xFE, .absoluteX)]
  | .dec => [(0xC6, .zeroPage), (0xD6, .zeroPageX), (0xCE, .absolute), (0xDE, .absoluteX)]
  | .inx => [(0xE8, .implicit)]
  | .iny => [(0xC8, .implicit)]
  | .dex => [(0xCA, .implicit)]
  | .dey => [(0x88, .implicit)]
  | .asl => [(0x0A, .accumulator), (0x06, .zeroPage), (0x16, .zeroPageX), (0x0E, .absolute),
      (0x1E, .absoluteX)]
  | .lsr => [(0x4A, .accumulator), (0x46, .zeroPage), (0x56, .zeroPageX), (0x4E, .absolute),
      (0x5E, .absoluteX)]
  | .rol => [(0x2A, .accumulator), (0x26, .zeroPage), (0x36, .zeroPageX), (0x2E, .absolute),
      (0x3E, .absoluteX)]
  | .ror => [(0x6A, .accumulator), (0x66, .zeroPage), (0x76, .zeroPageX), (0x6E, .absolute),
      (0x7E, .absoluteX)]
  | .bcc => [(0x90, .relative)]
  | .bcs => [(0xB0, .relative)]
  | .beq => [(0xF0, .relative)]
  | .bne => [(0xD0, .relative)]
  | .bmi => [(0x30, .relative)]
  | .bpl => [(0x10, .relative)]
  | .bvc => [(0x50, .relative)]
  | .bvs => [(0x70, .relative)]
  | .jmp => [(0x4C, .absolute), (0x6C, .indirect)]
  | .jsr => [(0x20, .absolute)]
  | .rts => [(0x60, .implicit)]
  | .rti => [(0x40, .implicit)]
  | .brk => [(0x00, .implicit)]
  | .nop => [(0xEA, .implicit)]
  | .clc => [(0x18, .implicit)]
  | .sec => [(0x38, .implicit)]
  | .cli => [(0x58, .implicit)]
  | .sei => [(0x78, .implicit)]
  | .cld => [(0xD8, .implicit)]
  | .sed => [(0xF8, .implicit)]
  | .clv => [(0xB8, .implicit)]

theorem mem_all (m : Mnemonic) : m ∈ all := by cases m <;> decide

end Mnemonic

end Cpu6502
