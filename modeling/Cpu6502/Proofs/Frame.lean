import Cpu6502.Proofs.Residue
import Cpu6502.Proofs.Turn

/-!
What an instruction leaves alone. The flags that an instruction declares are all that it can set,
whether it goes through (`Mnemonic.finish_has`) or is stopped half way
(`Instruction.residualStatus_has`), so they are all that a step changes (`Cpu.step_flags`).
-/

namespace Cpu6502

variable {β : Type}

theorem Registers.past_status (r : Registers) (n : Nat) : (r.past n).status = r.status := by
  rw [past_eq]

theorem Opcode.not_mem_affects (o : Opcode) {i : Instruction} {f : Flag}
    (hi : o.instruction = some i) (hf : o.affects.has f = false) : f ∉ i.mnemonic.affects := by
  rw [affects, hi] at hf
  simpa [Status.has_ofList] using hf

theorem Mnemonic.finish_has {m : Mnemonic} {f : Flag} (h : f ∉ m.affects) (bus : Bus β) (b : β)
    (mode : AddressingMode) (e : UInt16) (s : Registers) :
    (m.action.finish bus b mode e s).status.has f = s.status.has f := by
  cases m with
  | plp | rti => exact absurd f.mem_all h
  | bcc | bcs | beq | bne | bmi | bpl | bvc | bvs =>
    simp only [action, Action.finish]
    split <;> rfl
  | inc | dec | asl | lsr | rol | ror =>
    simp only [affects, List.mem_cons, List.not_mem_nil, or_false, not_or] at h
    simp only [action, Action.finish]
    split <;> simp [Modification.increment, Modification.decrement, Modification.shiftLeft,
      Modification.shiftRight, Modification.rotateLeft, Modification.rotateRight,
      Status.has_withResult, Status.has_put, h, Ne.symm]
  | _ =>
    simp only [affects, List.mem_cons, List.not_mem_nil, or_false, not_or] at h
    simp [action, Action.finish, Registers.loadA, Registers.loadX, Registers.loadY,
      Registers.putFlag, Registers.addWithCarry, Registers.subtractWithCarry, Registers.compare,
      Registers.bitTest, Status.has_withResult, Status.has_put, h, eq_comm]

theorem Instruction.residualStatus_has {i : Instruction} {f : Flag} (h : f ∉ i.mnemonic.affects)
    (bus : Bus β) (b : β) (r : Registers) (due : Phase) (pulled : Nat) :
    (i.residualStatus bus b r due pulled).has f = r.status.has f := by
  obtain ⟨m, mode⟩ := i
  cases m with
  | rti => exact absurd f.mem_all h
  | asl | lsr | rol | ror =>
    have hc : f ≠ .carry := by
      rintro rfl
      exact h List.mem_cons_self
    cases due <;> simp [residualStatus, Status.has_put, hc.symm]
  | _ => rfl

theorem Opcode.residualStatus_has (o : Opcode) {f : Flag} (hf : o.affects.has f = false)
    (bus : Bus β) (b : β) (r : Registers) (due : Option Phase) (pulled : Nat) :
    (o.residualStatus bus b r due pulled).has f = r.status.has f := by
  unfold residualStatus
  split
  · rename_i i p hi
    exact Instruction.residualStatus_has (o.not_mem_affects hi hf) bus b r p pulled
  · rfl

namespace Cpu

theorem step_has {c : Cpu} {bus : Bus β} {b : β} {f : Flag}
    (hf : (Opcode.ofCode (bus.read b c.registers.pc)).affects.has f = false) :
    (c.step bus b).registers.status.has f = c.registers.status.has f := by
  cases hr : (c.step bus b).result with
  | ok s =>
    rw [step_eq_unrestricted hr]
    cases hd : decode (bus.read b c.registers.pc) with
    | none => rw [(step_undocumented hd).1, Registers.past_status]
    | some i =>
      rw [(step_documented hd).2, Mnemonic.finish_has (Opcode.not_mem_affects _ hd hf),
        Registers.past_status, Registers.past_status]
  | error e =>
    rcases step_error_cases hr with ⟨-, -, hregisters, -⟩ | ⟨past, m, rest, hs, -, hregisters, -⟩
    · rw [hregisters, Registers.past_status]
    · rw [hregisters, status_of_split hs]
      exact Opcode.residualStatus_has _ hf bus b _ _ _

/-- Whatever becomes of a step, every flag outside those that its opcode declares is as it was, and
so is the whole status if the opcode cannot be fetched. -/
theorem step_flags (c : Cpu) (bus : Bus β) (b : β) :
    let o := c.step bus b
    let op := Opcode.ofCode (bus.read b c.registers.pc)
    (∀ f, op.affects.has f = false → o.registers.status.has f = c.registers.status.has f) ∧
      (bus.mapped b c.registers.pc = false → o.registers.status = c.registers.status) := by
  intro o op
  refine ⟨fun f hf => step_has hf, fun hpc => ?_⟩
  have ho : o = ⟨.error (.outOfBounds c.registers.pc), c.registers, b, [], []⟩ :=
    step_unmapped hpc
  rw [ho]

def rotateOnly : Bus Bool where
  -- `ROL $2E2E` wherever it is read, as long as it is on; it takes no write
  read _ _ := 0x2E
  write on _ _ := on
  mapped on _ := on
  writable _ _ := false

theorem step_flags_of_refusals :
    let o := powerOn.step rotateOnly true
    let u := powerOn.step rotateOnly false
    (o.result = .error (.outOfBounds 0x2E2E) ∧
        (Opcode.ofCode 0x2E).affects.has .interruptDisable = false ∧
          o.registers.status.has .interruptDisable = true) ∧
      u.result = .error (.outOfBounds 0) ∧ u.registers.status = powerOn.registers.status := by
  have hfree : (Opcode.ofCode 0x2E).affects.has .interruptDisable = false := rfl
  refine ⟨⟨rfl, hfree, ?_⟩, rfl, (step_flags powerOn rotateOnly false).2 rfl⟩
  exact ((step_flags powerOn rotateOnly true).1 .interruptDisable hfree).trans rfl

end Cpu

end Cpu6502
