import Cpu6502.FlatMemory
import Cpu6502.Proofs.Schedule

/-!
Calls of `step` in a row. A turn is one of them: the registers and the memory that it meets and its
outcome. The next turn starts from what that leaves, whatever the result was, so turns go on past
a halt or a fault where `walk` ends.
-/

namespace Cpu6502

variable {β : Type}

structure Turn (β : Type) where
  before : Registers
  memory : β
  outcome : Outcome Step β

namespace Turn

def Succeeds (t : Turn β) : Prop := ∃ s, t.outcome.result = .ok s

def opcode (bus : Bus β) (t : Turn β) : Opcode := .ofCode (bus.read t.memory t.before.pc)

end Turn

namespace Cpu

def turns (c : Cpu) (bus : Bus β) (b : β) : Nat → List (Turn β)
  | 0 => []
  | n + 1 =>
      let o := c.step bus b
      ⟨c.registers, b, o⟩ :: turns { c with registers := o.registers } bus o.memory n

def after (c : Cpu) (bus : Bus β) (b : β) : Nat → Cpu × β
  | 0 => (c, b)
  | n + 1 =>
      let o := c.step bus b
      after { c with registers := o.registers } bus o.memory n

theorem turns_add (c : Cpu) (bus : Bus β) (b : β) (j k : Nat) :
    c.turns bus b (j + k) =
      c.turns bus b j ++ (c.after bus b j).1.turns bus (c.after bus b j).2 k := by
  induction j generalizing c b with
  | zero => simp [turns, after]
  | succ j ih =>
    rw [Nat.add_right_comm]
    simp only [turns, after, List.cons_append, ih]

theorem turns_prefix (c : Cpu) (bus : Bus β) (b : β) {k n : Nat} (h : k ≤ n) :
    c.turns bus b k <+: c.turns bus b n := by
  obtain ⟨d, rfl⟩ := Nat.exists_eq_add_of_le h
  rw [turns_add]
  exact List.prefix_append _ _

theorem step_eq_unrestricted {c : Cpu} {bus : Bus β} {b : β} {s : Step}
    (h : (c.step bus b).result = .ok s) : c.step bus b = c.step bus.unrestricted b := by
  rcases c.step_cut bus b with hfree | ⟨a, rest, -, he, -⟩
  · exact hfree
  · rw [he] at h
    cases h

theorem accesses_of_step {c : Cpu} {bus : Bus β} {b : β} {s : Step}
    (h : (c.step bus b).result = .ok s) :
    (c.step bus b).accesses = (c.schedule bus b).map (·.access) := by
  rw [step_eq_unrestricted h, step_accesses]

theorem step_unmapped {c : Cpu} {bus : Bus β} {b : β} (h : bus.mapped b c.registers.pc = false) :
    c.step bus b = ⟨.error (.outOfBounds c.registers.pc), c.registers, b, [], []⟩ := by
  rw [step, Micro.instruction_eq, Microcode.exec, if_neg (by simp [h])]

theorem mapped_of_step {c : Cpu} {bus : Bus β} {b : β} {s : Step}
    (h : (c.step bus b).result = .ok s) : bus.mapped b c.registers.pc = true := by
  cases hm : bus.mapped b c.registers.pc with
  | true => rfl
  | false =>
    rw [step_unmapped hm] at h
    cases h

theorem step_flat {c : Cpu} {m : FlatMemory} {i : Instruction}
    (hd : decode (m.read c.registers.pc) = some i) :
    let o := c.step FlatMemory.bus m
    let r := c.registers.past 1
    let act := i.mnemonic.action
    o.result = .ok act.answer ∧
      o.registers = act.finish FlatMemory.bus m i.mode (i.mode.address m.read r)
        (r.past i.mode.operandBytes) ∧
      o.memory = ((c.schedule FlatMemory.bus m).map (·.access)).foldl FlatMemory.bus.served m := by
  have hd : decode (FlatMemory.bus.read m c.registers.pc) = some i := hd
  have hs := step_documented hd
  refine ⟨hs.1, hs.2, ?_⟩
  rw [← step_accesses]
  exact c.step_memory FlatMemory.bus m

theorem memory_of_tail {c : Cpu} {m : FlatMemory} {i : Instruction}
    (hd : decode (m.read c.registers.pc) = some i) :
    (c.step FlatMemory.bus m).memory =
      ((c.tail FlatMemory.bus m i).map (·.access)).foldl FlatMemory.bus.served m := by
  have hquiet : ∀ a ∈ (c.prelude FlatMemory.bus m i.mode).map (·.access), a.isWrite = false := by
    intro a ha
    obtain ⟨x, hx, rfl⟩ := List.mem_map.mp ha
    exact (c.prelude_quiet FlatMemory.bus m i.mode x hx).2.1
  rw [(step_flat hd).2.2, schedule_documented hd, List.map_append, List.foldl_append,
    FlatMemory.bus.foldl_served_reads m hquiet]

end Cpu

end Cpu6502
