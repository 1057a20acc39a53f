import Cpu6502.Proofs.Assignment
import Cpu6502.Proofs.LongArithmetic

/-!
`ADC` and `SBC` in integers. A sum takes the carry with it and a difference the borrow, which is the carry
that is not set (`Operation.extra`). The processor adds in both cases, the operand or its complement, and
comes to the same (`Operation.accumulates_addWithCarry`), in every mode (`Cpu.accumulates_of_step`). So
overflow and sign together compare signed numbers (`Operation.Accumulates.xor_iff`), and a difference with
the other carry undoes a sum (`Operation.Accumulates.restores`).
-/

namespace Cpu6502

variable {β : Type}

namespace Operation

def mnemonic : Operation → Mnemonic
  | add => .adc
  | subtract => .sbc

def extra (on : Bool) : Operation → Nat
  | add => on.toNat
  | subtract => (!on).toNat

section Addend

variable (op : Operation) (v : UInt8) (on : Bool)

theorem eval_extra (x y : Int) :
    op.eval x (y + op.extra on) = op.eval x y + on.toNat - op.carryIn.toNat := by
  have hborrow : (!on).toNat + on.toNat = 1 := by cases on <;> rfl
  cases op with
  | add =>
    simp only [eval, extra, carryIn, Bool.toNat_false]
    omega
  | subtract =>
    simp only [eval, extra, carryIn, Bool.toNat_true]
    omega

theorem toNat_addend (k : Nat) :
    ((k + (op.addend v).toNat + on.toNat : Nat) : Int) =
      op.eval k (v.toNat + op.extra on) + 256 * op.carryIn.toNat := by
  have hsum : ((k + (op.addend v).toNat + op.carryIn.toNat : Nat) : Int) =
      op.eval k v.toNat + 256 * op.carryIn.toNat := by
    simpa [littleEndian] using @addend_value op k [v]
  rw [eval_extra]
  omega

theorem carries_addend (k : Nat) :
    op.Carries 1 k (v.toNat + op.extra on) ↔ 256 ≤ k + (op.addend v).toNat + on.toNat := by
  have hsum := op.toNat_addend v on k
  cases op with
  | add =>
    simp only [eval, carryIn, Bool.toNat_false] at hsum
    simp only [Carries, pow_one]
    omega
  | subtract =>
    simp only [eval, carryIn, Bool.toNat_true] at hsum
    simp only [Carries]
    omega

theorem signed_addend (z : Int) :
    z + signed 1 (op.addend v).toNat + on.toNat = op.eval z (signed 1 v.toNat + op.extra on) := by
  have hsum : z + signed 1 (op.addend v).toNat + op.carryIn.toNat = op.eval z (signed 1 v.toNat) := by
    simpa [littleEndianSigned, littleEndian] using op.addend_signed z (List.cons_ne_nil v [])
  rw [eval_extra]
  omega

end Addend

structure Accumulates (op : Operation) (r : Registers) (v : UInt8) (s : Registers) : Prop where
  value : (s.a.toNat : Int) =
    op.eval r.a.toNat (v.toNat + op.extra (r.status.has .carry)) % 256
  carry : s.status.has .carry = true ↔
    op.Carries 1 r.a.toNat (v.toNat + op.extra (r.status.has .carry))
  overflow : s.status.has .overflow = true ↔
    ¬ Representable 1
      (op.eval (signed 1 r.a.toNat) (signed 1 v.toNat + op.extra (r.status.has .carry)))
  zero : s.status.has .zero = true ↔ s.a = 0
  negative : s.status.has .negative = true ↔ 128 ≤ s.a.toNat
  flags : ∀ f ∉ [Flag.carry, .zero, .overflow, .negative], s.status.has f = r.status.has f
  kept : s.x = r.x ∧ s.y = r.y ∧ s.sp = r.sp

theorem accumulates_addWithCarry (op : Operation) (r : Registers) (v : UInt8) :
    op.Accumulates r v (r.addWithCarry (op.addend v)) := by
  have hvalue := r.addWithCarry_value (op.addend v)
  have hsum := op.toNat_addend v (r.status.has .carry) r.a.toNat
  have hlt := (r.addWithCarry (op.addend v)).a.toNat_lt
  rw [← hvalue] at hsum
  constructor
  case value => omega
  case carry =>
    rw [carries_addend, ← hvalue]
    exact carry_of_sum hlt rfl
  case overflow =>
    rw [← signed_addend]
    exact r.addWithCarry_overflow _
  case zero => simp [Registers.addWithCarry, Registers.loadA, Status.has_withResult]
  case negative =>
    have hsign : (r.addWithCarry (op.addend v)).status.has .negative =
        ((r.addWithCarry (op.addend v)).a &&& 0x80 != 0) := by
      simp [Registers.addWithCarry, Registers.loadA, Status.has_withResult]
    rw [hsign, topBit_eq, decide_eq_true_iff]
  case flags =>
    intro f hf
    simp only [List.mem_cons, List.not_mem_nil, or_false, not_or] at hf
    simp [Registers.addWithCarry, Registers.loadA, Registers.putFlag, Status.has_withResult,
      Status.has_put, hf, eq_comm]
  case kept => exact ⟨rfl, rfl, rfl⟩

namespace Accumulates

variable {op : Operation} {r s t u : Registers} {v : UInt8}

theorem of_past {n : Nat} (h : op.Accumulates (r.past n) v s) : op.Accumulates r v s := by
  rw [Registers.past_eq] at h
  exact ⟨h.value, h.carry, h.overflow, h.zero, h.negative, h.flags, h.kept⟩

theorem xor_iff (h : subtract.Accumulates r v s) (hcarry : r.status.has .carry = true) :
    (s.status.has .negative ^^ s.status.has .overflow) = true ↔
      signed 1 r.a.toNat < signed 1 v.toNat := by
  have hr := r.a.toNat_lt
  have hv := v.toNat_lt
  have hs := s.a.toNat_lt
  have hvalue := h.value
  have hoverflow := h.overflow
  rw [hcarry] at hvalue hoverflow
  rw [Bool.xor_iff_ne, Ne, Bool.eq_iff_iff, h.negative, hoverflow]
  simp only [eval, extra, signed, Representable, pow_one, bmod_of_lt hr, bmod_of_lt hv,
    Bool.not_true, Bool.toNat_false] at hvalue ⊢
  omega

theorem restores (h : add.Accumulates r v s) (h' : subtract.Accumulates t v u) (ha : t.a = s.a)
    (hcarry : t.status.has .carry = !r.status.has .carry) : u.a = r.a := by
  have hr := r.a.toNat_lt
  have hu := u.a.toNat_lt
  have hsum := h.value
  have hdifference := h'.value
  rw [ha, hcarry] at hdifference
  simp only [eval, extra, Bool.not_not] at hsum hdifference
  apply UInt8.toNat_inj.mp
  omega

end Accumulates

end Operation

namespace Cpu

variable {c : Cpu} {bus : Bus β} {b : β} {op : Operation} {v : UInt8}

def Performs (op : Operation) (c : Cpu) (bus : Bus β) (b : β) (v : UInt8) : Prop :=
  ∃ mode s, decode (bus.read b c.registers.pc) = some ⟨op.mnemonic, mode⟩ ∧
    bus.read b (mode.address (bus.read b) (c.registers.past 1)) = v ∧
      (c.step bus b).result = .ok s

theorem accumulates_of_step (h : Performs op c bus b v) :
    op.Accumulates c.registers v (c.step bus b).registers := by
  obtain ⟨mode, s, hd, hv, hs⟩ := h
  have hfinish (r : Registers) : op.mnemonic.action.finish bus b mode
      (mode.address (bus.read b) (c.registers.past 1)) r = r.addWithCarry (op.addend v) := by
    rw [← hv]
    cases op <;> rfl
  rw [step_eq_unrestricted hs, (step_documented hd).2, hfinish]
  exact (op.accumulates_addWithCarry _ v).of_past.of_past

theorem memory_of_performs (h : Performs op c bus b v) : (c.step bus b).memory = b := by
  obtain ⟨mode, s, hd, -⟩ := h
  exact memory_of_not_writes hd (by cases op <;> rfl)

/-- A step of `ADC` or `SBC` leaves the sum or the difference in the accumulator, with the flags that belong
to it, and changes nothing else but the program counter. A step of `SBC` with the same operand and the other
carry undoes the sum. The difference without a borrow compares signed numbers. -/
theorem step_accumulates (h : Performs op c bus b v) :
    let o := c.step bus b
    op.Accumulates c.registers v o.registers ∧ o.memory = b ∧
      match op with
      | .add => ∀ (γ : Type) (d : Cpu) (other : Bus γ) (e : γ), Performs .subtract d other e v →
          d.registers.a = o.registers.a →
          d.registers.status.has .carry = !c.registers.status.has .carry →
          (d.step other e).registers.a = c.registers.a
      | .subtract => c.registers.status.has .carry = true →
          ((o.registers.status.has .negative ^^ o.registers.status.has .overflow) = true ↔
            signed 1 c.registers.a.toNat < signed 1 v.toNat) := by
  intro o
  have haccumulates := accumulates_of_step h
  have hmemory : o.memory = b := memory_of_performs h
  refine ⟨haccumulates, hmemory, ?_⟩
  cases op with
  | add => exact fun γ d other e hlater => haccumulates.restores (accumulates_of_step hlater)
  | subtract => exact haccumulates.xor_iff

def thereAndBack : Bus Unit where
  -- `ADC #$90` and `SBC #$90`
  read _ addr := if addr = 0 then 0x69 else if addr = 2 then 0xE9 else 0x90
  write _ _ _ := ()

theorem step_accumulates_there_and_back :
    let c : Cpu := ⟨{ Registers.powerOn with a := 0x90, status := .single .decimal }, .error⟩
    let o := c.step thereAndBack ()
    let d : Cpu := ⟨{ Registers.powerOn with a := 0x20, status := .full, pc := 2 }, .error⟩
    let p := d.step thereAndBack ()
    (Operation.add.Accumulates c.registers 0x90 o.registers ∧ o.registers.a = 0x20 ∧
        o.registers.status.has .overflow = true) ∧
      p.registers.a = 0x90 ∧ p.registers.status.has .overflow = true ∧
        ((p.registers.status.has .negative ^^ p.registers.status.has .overflow) = true ↔
          signed 1 (0x20 : UInt8).toNat < signed 1 (0x90 : UInt8).toNat) := by
  intro c o d p
  have hadd : Performs .add c thereAndBack () 0x90 :=
    ⟨.immediate, .proceed, by decide +kernel, rfl, rfl⟩
  have hsubtract : Performs .subtract d thereAndBack () 0x90 :=
    ⟨.immediate, .proceed, by decide +kernel, rfl, rfl⟩
  obtain ⟨haccumulates, -, hback⟩ := step_accumulates hadd
  obtain ⟨-, -, hcompare⟩ := step_accumulates hsubtract
  have hcarry : d.registers.status.has .carry = true := by decide +kernel
  exact ⟨⟨haccumulates, by decide +kernel, by decide +kernel⟩,
    hback Unit d thereAndBack () hsubtract (by decide +kernel) (by decide +kernel),
    by decide +kernel, hcompare hcarry⟩

end Cpu

end Cpu6502
