import Cpu6502.Opcode
import Cpu6502.Registers

/-!
What is logged. A message is data; `Message.line` gives its level and text. Lines do not run into each
other: that of a halt is of no other message (`Message.line_eq_halted`), and only a dropped write has the
line of one (`Message.line_eq_droppedWrite`).
-/

namespace Cpu6502

inductive Message where
  /-- An opcode was fetched; the registers are those before the fetch. -/
  | fetched (opcode : Opcode) (before : Registers)
  | halted (addr : UInt16)
  | skipped (code : UInt8) (addr : UInt16)
  | reset
  | droppedWrite (addr : UInt16) (value : UInt8)
deriving DecidableEq

def Message.line : Message → String
  | .fetched o r =>
      s!"TRACE {Hex.word r.pc}  {Hex.byte o.code}  {o.mnemonic} {o.mode.name} {r.summary}"
  | .halted addr => s!"DEBUG halted at 0x{Hex.word addr}"
  | .skipped code addr =>
      s!"WARN skipping unknown opcode 0x{Hex.byte code} at 0x{Hex.word addr}"
  | .reset => "DEBUG reset"
  | .droppedWrite addr value =>
      s!"TRACE dropping write of 0x{Hex.byte value} to read-only program image " ++
        s!"at 0x{Hex.word addr}"

namespace Message

theorem line_opening (m : Message) : m.line.toList.take 7 =
    match m with
    | .fetched _ r => "TRACE ".toList ++ [Hex.digit (r.pc.toNat / 16 / 16 / 16 % 16)]
    | .halted _ => "DEBUG h".toList
    | .skipped .. => "WARN sk".toList
    | .reset => "DEBUG r".toList
    | .droppedWrite .. => "TRACE d".toList := by
  unfold line
  cases m with
  | fetched o r => simp [toString, Hex.word, Hex.digits]
  | _ => simp [toString]

theorem line_eq_halted {m : Message} {pc : UInt16} : m.line = (halted pc).line ↔ m = .halted pc := by
  refine ⟨fun h => ?_, congrArg line⟩
  have hopening := congrArg (fun s => s.toList.take 7) h
  simp only [line_opening] at hopening
  cases m with
  | halted addr =>
    have haddr : Hex.word addr = Hex.word pc := (String.append_right_inj _).mp h
    rw [Hex.word_inj haddr]
  | _ => exact absurd hopening (by simp)

theorem line_eq_droppedWrite {m : Message} {addr : UInt16} {v : UInt8}
    (h : m.line = (droppedWrite addr v).line) : ∃ addr' v', m = .droppedWrite addr' v' := by
  have hopening := congrArg (fun s => s.toList.take 7) h
  simp only [line_opening] at hopening
  cases m with
  | droppedWrite addr' v' => exact ⟨addr', v', rfl⟩
  | fetched o r =>
    -- both are traces, but an address begins with an upper case digit
    have hdigit := Hex.digit_ne_lower (r.pc.toNat / 16 / 16 / 16 % 16) (Nat.mod_lt _ (by decide))
    exact absurd hopening (by simpa using hdigit)
  | _ => exact absurd hopening (by simp)

end Message

end Cpu6502
