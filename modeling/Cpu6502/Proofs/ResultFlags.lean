import Cpu6502.Proofs.AddWithCarry
import Cpu6502.Proofs.Frame
import Cpu6502.Proofs.HiddenFlags
import Cpu6502.Proofs.OperandRoute

/-!
What zero and negative say. An instruction that produces a value leaves it in a register or in memory, and
zero and negative then describe it (`Cpu.describes_of_completes`). No byte is zero and negative at once, so
the two flags exclude each other along a run that starts so, whether its steps succeed or not
(`Cpu.turns_exclusive`). Only `BIT`, `PLP` and `RTI` take them from elsewhere.
-/

namespace Cpu6502

variable {β : Type}

def Access.value : Access → UInt8
  | .read _ v => v
  | .write _ v => v

namespace Status

structure Describes (s : Status) (v : UInt8) : Prop where
  zero : s.has .zero = true ↔ v = 0
  negative : s.has .negative = true ↔ v.toNat.testBit 7 = true

def Exclusive (s : Status) : Prop := ¬ (s.has .zero = true ∧ s.has .negative = true)

variable {s t : Status} {v : UInt8}

theorem describes_withResult (s : Status) (v : UInt8) : (s.withResult v).Describes v := by
  constructor
  · simp [has_withResult]
  · rw [has_withResult, if_neg (by decide), if_pos rfl, topBit_eq_testBit]

theorem Describes.exclusive (h : s.Describes v) : s.Exclusive := by
  intro hboth
  have hv := h.zero.mp hboth.1
  have hbit := h.negative.mp hboth.2
  rw [hv] at hbit
  cases hbit

theorem Exclusive.of_has_eq (h : s.Exclusive)
    (hsame : ∀ f ∈ [Flag.zero, .negative], t.has f = s.has f) : t.Exclusive := by
  rwa [Exclusive, hsame .zero (by decide), hsame .negative (by decide)]

end Status

inductive Destination where
  | register (reg : Register)
  | memory

def Outcome.left (o : Outcome Step β) : Destination → List UInt8
  | .register reg => [o.registers.get reg]
  | .memory => (o.accesses.filter (·.isWrite)).map (·.value)

namespace Instruction

def destination? (i : Instruction) : Option Destination :=
  match i.mnemonic with
  | .lda | .txa | .tya | .pla | .adc | .sbc | .and | .ora | .eor => some (.register .a)
  | .ldx | .tax | .tsx | .inx | .dex => some (.register .x)
  | .ldy | .tay | .iny | .dey => some (.register .y)
  | .inc | .dec => some .memory
  | .asl | .lsr | .rol | .ror => some (if i.mode = .accumulator then .register .a else .memory)
  | _ => none

theorem finish_describes {i : Instruction} {reg : Register} (hi : i.destination? = some (.register reg))
    (bus : Bus β) (b : β) (e : UInt16) (s : Registers) :
    let r := i.mnemonic.action.finish bus b i.mode e s
    r.status.Describes (r.get reg) := by
  intro r
  obtain ⟨m, mode⟩ := i
  cases m with
  | asl | lsr | rol | ror =>
    have hacc : mode = .accumulator := by
      by_cases hacc : mode = .accumulator
      · exact hacc
      · simp [destination?, hacc] at hi
    subst hacc
    cases hi
    exact Status.describes_withResult _ _
  | lda | txa | tya | pla | adc | sbc | and | ora | eor | ldx | tax | tsx | inx | dex | ldy | tay | iny
  | dey =>
    cases hi
    exact Status.describes_withResult _ _
  | _ => cases hi

theorem modify_of_destination {code : UInt8} {i : Instruction} (hd : decode code = some i)
    (hi : i.destination? = some .memory) :
    i.mode ≠ .accumulator ∧ ∃ change, i.mnemonic.action = .modify change := by
  obtain ⟨m, mode⟩ := i
  have hmode := mode_mem_of_decode hd
  have hacc : mode ≠ .accumulator := by
    intro hacc
    subst hacc
    revert hmode hi
    cases m <;> simp [destination?, Mnemonic.encodings]
  refine ⟨hacc, ?_⟩
  cases m with
  | inc | dec | asl | lsr | rol | ror => exact ⟨_, rfl⟩
  | _ => cases hi

end Instruction

theorem Mnemonic.finish_exclusive {m : Mnemonic} (hm : m ∉ [Mnemonic.bit, .plp, .rti]) (bus : Bus β)
    (b : β) (mode : AddressingMode) (e : UInt16) {s : Registers} (h : s.status.Exclusive) :
    (m.action.finish bus b mode e s).status.Exclusive := by
  cases m with
  | bit | plp | rti => exact absurd (by decide) hm
  | lda | ldx | ldy | tax | tay | txa | tya | tsx | pla | adc | sbc | and | ora | eor | inx | iny | dex
  | dey | cmp | cpx | cpy => exact (Status.describes_withResult _ _).exclusive
  | inc | dec | asl | lsr | rol | ror =>
    simp only [action, Action.finish]
    split <;> exact (Status.describes_withResult _ _).exclusive
  | _ =>
    -- what is left declares neither flag
    refine h.of_has_eq fun f hf => finish_has ?_ bus b mode e s
    revert f
    decide

theorem Instruction.residualStatus_exclusive {i : Instruction} (hi : i.mnemonic ≠ .rti) (bus : Bus β)
    (b : β) {r : Registers} (h : r.status.Exclusive) (due : Phase) (pulled : Nat) :
    (i.residualStatus bus b r due pulled).Exclusive := by
  obtain ⟨m, mode⟩ := i
  cases m with
  | rti => exact absurd rfl hi
  | asl | lsr | rol | ror =>
    -- the carry is all that a shift has set
    refine h.of_has_eq fun f hf => ?_
    have hc : Flag.carry ≠ f := by
      revert f
      decide
    cases due <;> simp [residualStatus, Status.has_put, hc]
  | _ => exact h

theorem Opcode.residualStatus_exclusive {o : Opcode}
    (ho : ∀ i, o.instruction = some i → i.mnemonic ≠ .rti) (bus : Bus β) (b : β) {r : Registers}
    (h : r.status.Exclusive) (due : Option Phase) (pulled : Nat) :
    (o.residualStatus bus b r due pulled).Exclusive := by
  unfold residualStatus
  split
  · rename_i i p hi
    exact Instruction.residualStatus_exclusive (ho i hi) bus b h p pulled
  · exact h

namespace Cpu

variable {c : Cpu} {bus : Bus β} {b : β} {i : Instruction} {d : Destination}

theorem describes_of_completes (h : c.Completes bus b i) (hd : i.destination? = some d) :
    let o := c.step bus b
    ∃ v, o.left d = [v] ∧ o.registers.status.Describes v := by
  intro o
  cases d with
  | register reg =>
    refine ⟨o.registers.get reg, rfl, ?_⟩
    have ho : o.registers = _ := registers_of_completes h
    rw [ho]
    exact Instruction.finish_describes hd bus b _ _
  | memory =>
    obtain ⟨hacc, change, hact⟩ := Instruction.modify_of_destination h.1 hd
    obtain ⟨hregisters, hwrites⟩ := leaves_of_completes h (by rw [hact]; rfl)
    simp only [hact, Action.leaves, if_neg hacc] at hregisters hwrites
    refine ⟨_, congrArg (List.map Access.value) hwrites, ?_⟩
    have ho : o.registers = _ := hregisters
    rw [ho]
    exact Status.describes_withResult _ _

theorem step_exclusive (h : c.registers.status.Exclusive)
    (hturn : ∀ m ∈ [Mnemonic.bit, .plp, .rti],
      ¬ Turn.Executes bus m ⟨c.registers, b, c.step bus b⟩) :
    (c.step bus b).registers.status.Exclusive := by
  cases hm : bus.mapped b c.registers.pc with
  | false =>
    rw [step_unmapped hm]
    exact h
  | true =>
    have hother : ∀ i, decode (bus.read b c.registers.pc) = some i →
        i.mnemonic ∉ [Mnemonic.bit, .plp, .rti] :=
      fun i hi hmem => hturn i.mnemonic hmem ⟨hm, i.mode, hi⟩
    cases hr : (c.step bus b).result with
    | ok s =>
      rw [step_eq_unrestricted hr]
      cases hd : decode (bus.read b c.registers.pc) with
      | none => rwa [(step_undocumented hd).1, Registers.past_status]
      | some i =>
        rw [(step_documented hd).2]
        apply Mnemonic.finish_exclusive (hother i hd)
        rwa [Registers.past_status, Registers.past_status]
    | error e =>
      rcases step_error_cases hr with ⟨-, -, hregisters, -⟩ | ⟨past, x, rest, hs, -, hregisters, -⟩
      · rwa [hregisters, Registers.past_status]
      · rw [hregisters, status_of_split hs]
        refine Opcode.residualStatus_exclusive (fun i hi hrti => hother i hi ?_) bus b h _ _
        simp [hrti]

theorem turns_exclusive {n : Nat} (h : c.registers.status.Exclusive)
    (hturns : ∀ t ∈ c.turns bus b n, ∀ m ∈ [Mnemonic.bit, .plp, .rti], ¬ t.Executes bus m) :
    ∀ t ∈ c.turns bus b n, t.outcome.registers.status.Exclusive := by
  induction n generalizing c b with
  | zero => exact fun t ht => nomatch ht
  | succ n ih =>
    obtain ⟨hfirst, hrest⟩ := List.forall_mem_cons.mp hturns
    have hstep := step_exclusive h hfirst
    exact List.forall_mem_cons.mpr ⟨hstep, ih hstep hrest⟩

/-- After a step that produces a value, zero says whether it is zero and negative is its highest bit,
whether it is in a register or was written. So along a run that executes no `BIT`, `PLP` or `RTI` the two
are never set together, unless they were before. -/
theorem results_described (c : Cpu) (bus : Bus β) (b : β) :
    (∀ i d, c.Completes bus b i → i.destination? = some d →
        ∃ v, (c.step bus b).left d = [v] ∧ (c.step bus b).registers.status.Describes v) ∧
      ∀ n, c.registers.status.Exclusive →
        (∀ t ∈ c.turns bus b n, ∀ m ∈ [Mnemonic.bit, .plp, .rti], ¬ t.Executes bus m) →
        ∀ t ∈ c.turns bus b n, t.outcome.registers.status.Exclusive :=
  ⟨fun _ _ => describes_of_completes, fun _ => turns_exclusive⟩

def countdown : Bus UInt8 where
  -- `DEC $10`, where there is a cell
  read cell addr := if addr = 0 then 0xC6 else if addr = 1 then 0x10 else cell
  write _ _ v := v

theorem results_described_of_refusals :
    let o := powerOn.step countdown 0
    let ts := powerOn.turns rotateOnly true 3
    (∃ v, o.left .memory = [v] ∧ o.registers.status.Describes v) ∧
      o.registers.status.has .negative = true ∧ powerOn.registers.status.Exclusive ∧
        (∀ t ∈ ts, ∀ m ∈ [Mnemonic.bit, .plp, .rti], ¬ t.Executes rotateOnly m) ∧
          ∀ t ∈ ts, t.outcome.registers.status.Exclusive := by
  intro o ts
  have hdec : powerOn.Completes countdown 0 ⟨.dec, .zeroPage⟩ := ⟨by decide +kernel, .proceed, rfl⟩
  have hstart : powerOn.registers.status.Exclusive := by
    intro hboth
    cases hboth.1
  have hrol : decode 0x2E = some ⟨.rol, .absolute⟩ := rfl
  have hother : ∀ t ∈ ts, ∀ m ∈ [Mnemonic.bit, .plp, .rti], ¬ t.Executes rotateOnly m := by
    intro t _ m hm hexec
    obtain ⟨-, mode, hp⟩ := hexec
    cases hrol.symm.trans hp
    revert hm
    decide
  obtain ⟨hvalue, -⟩ := results_described powerOn countdown 0
  obtain ⟨-, hruns⟩ := results_described powerOn rotateOnly true
  exact ⟨hvalue _ _ hdec rfl, by decide +kernel, hstart, hother, hruns 3 hstart hother⟩

end Cpu

end Cpu6502
