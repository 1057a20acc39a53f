import Cpu6502.Proofs.AccumulatorArithmetic
import Cpu6502.Proofs.OperandRoute

/-!
Comparisons. A comparison of a register with a byte sets carry, zero and negative by a test and a difference
of its own, and they are those of a subtraction without a borrow (`Registers.compare_eq_of_accumulates`),
in every mode. The branch that is executed next then goes by how the two compare (`Cpu.step_compares`).
-/

namespace Cpu6502

variable {β : Type}

def Mnemonic.compared : Mnemonic → Option Register
  | .cmp => some .a
  | .cpx => some .x
  | .cpy => some .y
  | _ => none

def Mnemonic.takenAfter (u v : UInt8) : Mnemonic → Option Bool
  | .bcc => some (u < v)
  | .bcs => some (v ≤ u)
  | .beq => some (u = v)
  | .bne => some (u ≠ v)
  | _ => none

theorem sub_eq_zero_iff (u v : UInt8) : u - v = 0 ↔ u = v := by
  constructor
  · intro h
    rw [← UInt8.sub_add_cancel u v, h, UInt8.zero_add]
  · intro h
    rw [h, UInt8.sub_self]

namespace Registers

variable (r : Registers) (u v : UInt8)

theorem compare_carry : (r.compare u v).status.has .carry = decide (v ≤ u) := by
  simp [compare, Status.has_withResult, Status.has_put]

theorem compare_zero : (r.compare u v).status.has .zero = decide (u = v) := by
  rw [compare, Status.has_withResult, if_pos rfl, Bool.eq_iff_iff, beq_iff_eq, decide_eq_true_iff]
  exact sub_eq_zero_iff u v

theorem compare_negative :
    (r.compare u v).status.has .negative = decide (128 ≤ (u - v).toNat) := by
  rw [compare, Status.has_withResult, if_neg (by decide), if_pos rfl, topBit_eq]

theorem compare_other {f : Flag} (hf : f ∉ [Flag.carry, .zero, .negative]) :
    (r.compare u v).status.has f = r.status.has f := by
  simp only [List.mem_cons, List.not_mem_nil, or_false, not_or] at hf
  simp [compare, Status.has_withResult, Status.has_put, hf, eq_comm]

variable {r u v}

theorem compare_eq_of_accumulates {s t : Registers} (h : Operation.subtract.Accumulates s v t) (hu : s.a = u)
    (hcarry : s.status.has .carry = true) :
    ∀ f ∈ [Flag.carry, .zero, .negative], (r.compare u v).status.has f = t.status.has f := by
  have hu' := u.toNat_lt
  have hv := v.toNat_lt
  have ht := t.a.toNat_lt
  have hvalue := h.value
  have hcarries := h.carry
  rw [hu, hcarry] at hvalue hcarries
  simp only [Operation.eval, Operation.Carries, Operation.extra, Bool.not_true,
    Bool.toNat_false] at hvalue hcarries
  have hresult : t.a = u - v := by
    apply UInt8.toNat_inj.mp
    rw [UInt8.toNat_sub]
    omega
  intro f hf
  simp only [List.mem_cons, List.not_mem_nil, or_false] at hf
  rcases hf with rfl | rfl | rfl
  · rw [compare_carry, Bool.eq_iff_iff, decide_eq_true_iff, hcarries, UInt8.le_iff_toNat_le]
    rfl
  · rw [compare_zero, Bool.eq_iff_iff, decide_eq_true_iff, h.zero, hresult, sub_eq_zero_iff]
  · rw [compare_negative, Bool.eq_iff_iff, decide_eq_true_iff, h.negative, hresult]

end Registers

theorem Mnemonic.branch_of_takenAfter {m : Mnemonic} {u v : UInt8} {taken : Bool}
    (h : m.takenAfter u v = some taken) :
    ∃ flag wanted, m.action = .branch flag wanted ∧
      ∀ r : Registers, (r.compare u v).status.has flag = wanted ↔ taken = true := by
  cases m with
  | bcc =>
    refine ⟨.carry, false, rfl, fun r => ?_⟩
    rw [r.compare_carry, decide_eq_false_iff_not, UInt8.not_le, ← Option.some_inj.mp h, decide_eq_true_iff]
  | bcs =>
    refine ⟨.carry, true, rfl, fun r => ?_⟩
    rw [r.compare_carry, Option.some_inj.mp h]
  | beq =>
    refine ⟨.zero, true, rfl, fun r => ?_⟩
    rw [r.compare_zero, Option.some_inj.mp h]
  | bne =>
    refine ⟨.zero, false, rfl, fun r => ?_⟩
    rw [r.compare_zero, decide_eq_false_iff_not, ← Option.some_inj.mp h, decide_eq_true_iff]
  | _ => cases h

namespace Cpu

variable {c : Cpu} {bus : Bus β} {b : β} {m : Mnemonic} {mode : AddressingMode}

theorem compare_of_completes {reg : Register} (hm : m.compared = some reg)
    (h : c.Completes bus b ⟨m, mode⟩) :
    (c.step bus b).registers =
      { c.registers.compare (c.registers.get reg) (c.operand bus b mode) with
        pc := c.registers.pc + UInt16.ofNat (Instruction.size ⟨m, mode⟩) } := by
  have hoperand : m.action.hasOperand = true := by cases m <;> first | rfl | cases hm
  rw [(leaves_of_completes h hoperand).1]
  cases m <;> cases hm <;> rfl

theorem branch_of_completes {flag : Flag} {wanted : Bool} (hm : m.action = .branch flag wanted)
    (h : c.Completes bus b ⟨m, mode⟩) :
    (c.step bus b).registers = { c.registers with
      pc := if c.registers.status.has flag = wanted then c.effective bus b mode
        else c.registers.pc + 2 } := by
  have hmode : mode = .relative := by
    have hmem := mode_mem_of_decode h.1
    cases m <;> first | exact List.mem_singleton.mp hmem | cases hm
  have hpast : (c.registers.past 1).past mode.operandBytes =
      { c.registers with pc := c.registers.pc + 2 } := by
    rw [hmode]
    exact c.registers.past_past 1 1
  rw [registers_of_completes h, hpast]
  simp only [hm, Action.finish]
  split <;> rfl

/-- A comparison sets carry, zero and negative as a subtraction without a borrow would, by which the
register is at least the operand or equal to it, and changes nothing else but the program counter. The
branch that is executed next goes by the same relations. -/
theorem step_compares {reg : Register} (hm : m.compared = some reg)
    (h : c.Completes bus b ⟨m, mode⟩) :
    let o := c.step bus b
    let u := c.registers.get reg
    let v := c.operand bus b mode
    (∀ (γ : Type) (d : Cpu) (other : Bus γ) (e : γ), Performs .subtract d other e v →
        d.registers.a = u → d.registers.status.has .carry = true →
        ∀ f ∈ [Flag.carry, .zero, .negative],
          o.registers.status.has f = (d.step other e).registers.status.has f) ∧
      (o.registers.status.has .carry = true ↔ v ≤ u) ∧
      (o.registers.status.has .zero = true ↔ u = v) ∧
      (∀ f ∉ [Flag.carry, .zero, .negative], o.registers.status.has f = c.registers.status.has f) ∧
      (∀ kept, o.registers.get kept = c.registers.get kept) ∧ o.memory = b ∧
      ∀ m' taken, m'.takenAfter u v = some taken →
        let next : Cpu := { c with registers := o.registers }
        ∀ mode', next.Completes bus o.memory ⟨m', mode'⟩ →
          (next.step bus o.memory).registers = { o.registers with
            pc := if taken then next.effective bus o.memory mode' else o.registers.pc + 2 } := by
  intro o u v
  have ho : o.registers = _ := compare_of_completes hm h
  have hstatus : o.registers.status = (c.registers.compare u v).status :=
    (congrArg Registers.status ho).trans rfl
  have hcarry : o.registers.status.has .carry = decide (v ≤ u) := by rw [hstatus, Registers.compare_carry]
  have hzero : o.registers.status.has .zero = decide (u = v) := by rw [hstatus, Registers.compare_zero]
  have hmemory : o.memory = b := memory_of_not_writes h.1 (by cases m <;> first | rfl | cases hm)
  refine ⟨?_, by rw [hcarry, decide_eq_true_iff], by rw [hzero, decide_eq_true_iff], ?_, ?_, hmemory, ?_⟩
  · intro γ d other e hsbc ha hset
    rw [hstatus]
    exact Registers.compare_eq_of_accumulates (accumulates_of_step hsbc) ha hset
  · intro f hf
    rw [hstatus, Registers.compare_other _ _ _ hf]
  · intro kept
    rw [ho]
    cases kept <;> rfl
  · intro m' taken htaken next mode' hnext
    obtain ⟨flag, wanted, hact, htakes⟩ := Mnemonic.branch_of_takenAfter htaken
    have hwanted : next.registers.status.has flag = wanted ↔ taken = true := by
      rw [← htakes c.registers, ← hstatus]
    rw [branch_of_completes hact hnext]
    simp only [hwanted]
    rfl

def turningBack : Bus Unit where
  -- `CPX #$80` and `BCC` back to its own opcode at `$0000`, and `SBC #$80` at `$0010`
  read _ addr :=
    match addr with
    | 0x0000 => 0xE0
    | 0x0002 => 0x90
    | 0x0003 => 0xFE
    | 0x0010 => 0xE9
    | _ => 0x80
  write _ _ _ := ()

theorem step_compares_turning_back :
    let c : Cpu := ⟨{ Registers.powerOn with x := 0x7F, status := .full }, .skip⟩
    let d : Cpu := ⟨{ Registers.powerOn with a := 0x7F, status := .single .carry, pc := 0x0010 }, .skip⟩
    let o := c.step turningBack ()
    let next : Cpu := { c with registers := o.registers }
    (∀ f ∈ [Flag.carry, .zero, .negative],
        o.registers.status.has f = (d.step turningBack ()).registers.status.has f) ∧
      (o.registers.status.has .carry = true ↔ (0x80 : UInt8) ≤ 0x7F) ∧
      o.registers.status.has .decimal = true ∧
      (next.step turningBack o.memory).registers = { o.registers with pc := 2 } := by
  intro c d o next
  have hcpx : c.Completes turningBack () ⟨.cpx, .immediate⟩ := ⟨by decide +kernel, .proceed, rfl⟩
  have hsbc : Performs .subtract d turningBack () 0x80 :=
    ⟨.immediate, .proceed, by decide +kernel, rfl, rfl⟩
  have hnext : next.Completes turningBack o.memory ⟨.bcc, .relative⟩ :=
    ⟨by decide +kernel, .proceed, by decide +kernel⟩
  have hoperand : c.operand turningBack () .immediate = 0x80 := by decide +kernel
  have hx : Mnemonic.cpx.compared = some .x := rfl
  obtain ⟨hagree, hcarry, -, hkept, -, -, hbranch⟩ := step_compares hx hcpx
  rw [hoperand] at hagree hcarry hbranch
  refine ⟨hagree Unit d turningBack () hsbc rfl (by decide +kernel), hcarry, ?_, ?_⟩
  · exact (hkept .decimal (by decide)).trans (Status.has_full .decimal)
  · exact (hbranch .bcc true (by decide +kernel) .relative hnext).trans (by decide +kernel)

end Cpu

end Cpu6502
