import Cpu6502.Proofs.Endings
import Cpu6502.Proofs.Frame

/-!
What callers see of the two status bits that are no latches: the unused bit reads as one and break as
zero. The processor makes a status in two ways only, at power-on and from a byte that it pulls, and
both are so; every other step leaves the two bits alone (`Cpu.step_held`). Calls keep it that way until a
caller puts in a status of its own (`Cpu.status_held`).
-/

namespace Cpu6502

variable {β : Type}

structure Status.Held (p : Status) : Prop where
  unused : p.has .unused = true
  breakCommand : p.has .breakCommand = false

namespace Status

theorem held_powerOn : powerOn.Held := ⟨rfl, rfl⟩

theorem held_ofStack (v : UInt8) : (ofStack v).Held := by
  constructor <;> simp [has_ofStack]

end Status

def Mnemonic.pullsStatus : Mnemonic → Bool
  | .plp | .rti => true
  | _ => false

theorem Mnemonic.unused_not_affected {m : Mnemonic} (h : m.pullsStatus = false) :
    .unused ∉ m.affects ∧ .breakCommand ∉ m.affects := by
  cases m <;> first | decide | cases h

theorem Microcode.exec_read_registers {α : Type} (bus : Bus β) (b : β) (r : Registers) (addr : UInt16)
    (next : UInt8 → Microcode α) :
    ((Microcode.read r addr next).exec bus b).registers =
      if bus.mapped b addr = true then ((next (bus.read b addr)).exec bus b).registers else r := by
  rw [exec]
  split <;> rfl

namespace Cpu

variable {c d : Cpu} {bus : Bus β} {b e : β} {k n : Nat}

def PullsStatus (c : Cpu) (bus : Bus β) (b : β) : Prop :=
  bus.mapped b c.registers.pc = true ∧
    bus.mapped b (stackAddress (c.registers.sp + 1)) = true ∧
      ∃ i, decode (bus.read b c.registers.pc) = some i ∧ i.mnemonic.pullsStatus = true

theorem step_status_pulled {i : Instruction} (hm : bus.mapped b c.registers.pc = true)
    (hd : decode (bus.read b c.registers.pc) = some i) (hi : i.mnemonic.pullsStatus = true) :
    let top := stackAddress (c.registers.sp + 1)
    (c.step bus b).registers.status =
      if bus.mapped b top = true then .ofStack (bus.read b top) else c.registers.status := by
  intro top
  rw [step_mapped hm]
  simp only [Micro.execution, hd]
  have hfits := decode_fits hd
  obtain ⟨m, mode⟩ := i
  cases m with
  | plp =>
    obtain rfl : mode = .implicit := eq_of_beq hfits
    change ((Microcode.read _ top fun v => .done _ _).exec bus b).registers.status = _
    rw [Microcode.exec_read_registers]
    split <;> rfl
  | rti =>
    obtain rfl : mode = .implicit := eq_of_beq hfits
    change ((Microcode.read _ top fun v => _).exec bus b).registers.status = _
    rw [Microcode.exec_read_registers]
    split
    · -- the program counter is pulled when the status is set already
      change ((Microcode.read _ _ fun lo => .read _ _ fun hi => .done _ _).exec bus
        b).registers.status = _
      rw [Microcode.exec_read_registers]
      split
      · rw [Microcode.exec_read_registers]
        split <;> rfl
      · rfl
    · rfl
  | _ => cases hi

theorem held_of_pull (h : c.PullsStatus bus b) : (c.step bus b).registers.status.Held := by
  obtain ⟨hm, htop, i, hd, hi⟩ := h
  rw [step_status_pulled hm hd hi, if_pos htop]
  exact Status.held_ofStack _

theorem held_of_other (h : c.registers.status.Held)
    (hop : ∀ i, decode (bus.read b c.registers.pc) = some i → i.mnemonic.pullsStatus = false) :
    (c.step bus b).registers.status.Held := by
  have haffects : (Opcode.ofCode (bus.read b c.registers.pc)).affects.has .unused = false ∧
      (Opcode.ofCode (bus.read b c.registers.pc)).affects.has .breakCommand = false := by
    rw [Opcode.ofCode, Opcode.affects]
    cases hd : decode (bus.read b c.registers.pc) with
    | none => exact ⟨Status.has_empty _, Status.has_empty _⟩
    | some i => simpa [Status.has_ofList] using Mnemonic.unused_not_affected (hop i hd)
  exact ⟨(step_has haffects.1).trans h.unused, (step_has haffects.2).trans h.breakCommand⟩

theorem step_held (h : c.registers.status.Held) : (c.step bus b).registers.status.Held := by
  cases hm : bus.mapped b c.registers.pc with
  | false =>
    rw [step_unmapped hm]
    exact h
  | true =>
    cases hd : decode (bus.read b c.registers.pc) with
    | none => exact held_of_other h (by simp [hd])
    | some i =>
      cases hi : i.mnemonic.pullsStatus with
      | false => exact held_of_other h (by rw [hd]; intro j hj; cases hj; exact hi)
      | true =>
        rw [step_status_pulled hm hd hi]
        split
        · exact Status.held_ofStack _
        · exact h

theorem Reaches.held (h : Reaches bus k c b d e) (hc : c.registers.status.Held) :
    d.registers.status.Held := by
  induction h with
  | refl c b => exact hc
  | step _ _ ih => exact ih (step_held hc)

theorem run_held (h : c.registers.status.Held) (n : Nat) :
    (c.run bus b n).registers.status.Held := by
  rcases c.run_cases bus b n with ⟨d, e, hreach, hstop⟩ | ⟨k, d, e, -, hreach, -, hstop⟩
  · have hregisters : (c.run bus b n).registers = d.registers := congrArg Stop.registers hstop
    rw [hregisters]
    exact hreach.held h
  · have hregisters : (c.run bus b n).registers = (d.step bus e).registers :=
      congrArg Stop.registers hstop
    rw [hregisters]
    exact step_held (hreach.held h)

def PullsWithin (c : Cpu) (bus : Bus β) (b : β) (n : Nat) : Prop :=
  ∃ k d e, k < n ∧ Reaches bus k c b d e ∧ d.PullsStatus bus e

theorem run_held_of_pull (h : c.PullsWithin bus b n) : (c.run bus b n).registers.status.Held := by
  obtain ⟨k, d, e, hk, hreach, hpull⟩ := h
  obtain ⟨j, rfl⟩ := Nat.exists_eq_add_of_lt hk
  have hregisters : (c.run bus b (k + (j + 1))).registers = (d.run bus e (j + 1)).registers :=
    congrArg Stop.registers (hreach.run_stop (j + 1))
  rw [Nat.add_assoc, hregisters]
  by_cases hs : (d.step bus e).result = .ok .proceed
  · have hrun : (d.run bus e (j + 1)).registers = _ := congrArg Stop.registers (run_of_proceed hs)
    rw [hrun]
    exact run_held (held_of_pull hpull) j
  · have hrun : (d.run bus e (j + 1)).registers = _ := congrArg Stop.registers (run_of_stop hs)
    rw [hrun]
    exact held_of_pull hpull

end Cpu

/-- What a caller can have the processor do, each time with a bus or a program of its choice.
`setRegisters` is whatever it does with the register file when that is lent to it. -/
inductive Call where
  | step {β : Type} (bus : Bus β) (b : β)
  | run {β : Type} (bus : Bus β) (b : β) (n : Nat)
  | interpret (program : Array UInt8) (n : Nat)
  | reset
  | setPolicy (policy : UnknownOpcodes)
  | setA (v : UInt8)
  | setX (v : UInt8)
  | setY (v : UInt8)
  | setSp (v : UInt8)
  | setPc (w : UInt16)
  | setStatus (p : Status)
  | setRegisters (r : Registers)

namespace Call

def apply (c : Cpu) : Call → Cpu
  | .step bus b => { c with registers := (c.step bus b).registers }
  | .run bus b n => { c with registers := (c.run bus b n).registers }
  | .interpret program n => { c with registers := (c.interpret program n).registers }
  | .reset => c.reset.1
  | .setPolicy policy => { c with policy := policy }
  | .setA v => { c with registers := { c.registers with a := v } }
  | .setX v => { c with registers := { c.registers with x := v } }
  | .setY v => { c with registers := { c.registers with y := v } }
  | .setSp v => { c with registers := { c.registers with sp := v } }
  | .setPc w => { c with registers := { c.registers with pc := w } }
  | .setStatus p => { c with registers := { c.registers with status := p } }
  | .setRegisters r => { c with registers := r }

def assigns : Call → Bool
  | .setStatus _ | .setRegisters _ => true
  | _ => false

/-- The processor makes its status anew in the course of the call. -/
def Renews (c : Cpu) : Call → Prop
  | .reset => True
  | .step bus b => c.PullsStatus bus b
  | .run bus b n => c.PullsWithin bus b n
  | .interpret program n => ∃ hsize : program.size ≤ 0xFFFF,
      let start : Cpu := { c with registers := { c.registers with pc := 0 } }
      start.PullsWithin Image.bus ⟨program, hsize⟩ n
  | _ => False

variable {c : Cpu} {x : Call}

theorem apply_held (hx : x.assigns = false) (h : c.registers.status.Held) :
    (x.apply c).registers.status.Held := by
  cases x with
  | step bus b => exact Cpu.step_held h
  | run bus b n => exact Cpu.run_held h n
  | interpret program n =>
    change (c.interpret program n).registers.status.Held
    by_cases hsize : program.size ≤ 0xFFFF
    · rw [Cpu.interpret_of_size hsize]
      exact Cpu.run_held (c := { c with registers := { c.registers with pc := 0 } }) h n
    · rw [Cpu.interpret_of_large (Nat.lt_of_not_le hsize)]
      exact h
  | reset => exact Status.held_powerOn
  | setStatus p | setRegisters r => cases hx
  | _ => exact h

theorem apply_renews (h : x.Renews c) : (x.apply c).registers.status.Held := by
  cases x with
  | step bus b => exact Cpu.held_of_pull h
  | run bus b n => exact Cpu.run_held_of_pull h
  | interpret program n =>
    obtain ⟨hsize, hpull⟩ := h
    change (c.interpret program n).registers.status.Held
    rw [Cpu.interpret_of_size hsize]
    exact Cpu.run_held_of_pull hpull
  | reset => exact Status.held_powerOn
  | _ => exact h.elim

end Call

namespace Cpu

def called (c : Cpu) (calls : List Call) : Cpu := calls.foldl Call.apply c

theorem called_held {c : Cpu} {calls : List Call} (hcalls : ∀ x ∈ calls, x.assigns = false)
    (h : c.registers.status.Held) : (c.called calls).registers.status.Held := by
  induction calls generalizing c with
  | nil => exact h
  | cons x calls ih =>
    obtain ⟨hx, hcalls⟩ := List.forall_mem_cons.mp hcalls
    exact ih hcalls (Call.apply_held hx h)

/-- Through calls that put in no status, the unused bit is one and break is zero: from power-on, and from
any call, whatever was called before it, that makes the status anew. -/
theorem status_held {calls : List Call} (hcalls : ∀ x ∈ calls, x.assigns = false) :
    (∀ policy, (called ⟨.powerOn, policy⟩ calls).registers.status.Held) ∧
      ∀ (c : Cpu) (earlier : List Call) (x : Call), x.Renews (c.called earlier) →
        (c.called (earlier ++ x :: calls)).registers.status.Held := by
  refine ⟨fun policy => called_held hcalls Status.held_powerOn, fun c earlier x hx => ?_⟩
  have hsplit : c.called (earlier ++ x :: calls) = (x.apply (c.called earlier)).called calls := by
    rw [called, List.foldl_append]
    rfl
  rw [hsplit]
  exact called_held hcalls (Call.apply_renews hx)

theorem status_held_of_refused_return :
    let c := returning.called [.setStatus .full]
    (c.step returns ()).result = .error (.outOfBounds 0x0102) ∧ ¬ c.registers.status.Held ∧
      (Call.step returns ()).Renews c ∧
      (returning.called [.setStatus .full, .step returns (), .setA 1]).registers.status.Held := by
  intro c
  have hstep : ((returning.called [.setStatus .full]).step returns ()).result =
      .error (.outOfBounds 0x0102) := rfl
  have hcalls : ∀ x ∈ [Call.setA 1], x.assigns = false := by simp [Call.assigns]
  have hrenews : (Call.step returns ()).Renews c := ⟨rfl, by decide, ⟨.rti, .implicit⟩, rfl, rfl⟩
  have hset : c.registers.status.has .breakCommand = true := Status.has_full .breakCommand
  refine ⟨hstep, fun h => Bool.noConfusion (hset.symm.trans h.breakCommand), hrenews, ?_⟩
  exact (status_held hcalls).2 returning [.setStatus .full] (.step returns ()) hrenews

end Cpu

end Cpu6502
