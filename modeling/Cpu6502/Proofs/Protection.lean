import Mathlib.Data.List.Forall2
import Cpu6502.Proofs.Turn

/-!
Memory protection. Buses are in lockstep when they give the same answers for as long as they take the
same writes; then the steps on them are alike, and so are turns and runs (`Cpu.turns_lockstep`,
`Cpu.run_lockstep`). A store has a cell for every address and permissions that never change. Stores
whose readable cells agree are in lockstep, so cells that cannot be read are never seen; and a store
is in lockstep with itself while the cells that cannot be written keep their values
(`Cpu.memory_protected`).
-/

namespace Cpu6502

variable {α β γ : Type}

/-- The relation `R` is between contents that permit the same accesses and show the same bytes, and it
lasts through every write. Nothing is asked of accesses that are refused, nor of what is logged. -/
structure Bus.Lockstep (R : β → γ → Prop) (bus : Bus β) (bus' : Bus γ) : Prop where
  mapped_eq {b : β} {d : γ} (h : R b d) : bus.mapped b = bus'.mapped d
  writable_eq {b : β} {d : γ} (h : R b d) : bus.writable b = bus'.writable d
  read_eq {b : β} {d : γ} {addr : UInt16} (h : R b d) (hm : bus.mapped b addr = true) :
    bus.read b addr = bus'.read d addr
  write {b : β} {d : γ} {addr : UInt16} (h : R b d) (hw : bus.writable b addr = true) (v : UInt8) :
    R (bus.write b addr v) (bus'.write d addr v)

theorem Bus.Lockstep.of_invariant {bus : Bus β} {I : β → Prop}
    (h : ∀ b addr v, I b → bus.writable b addr = true → I (bus.write b addr v)) :
    Lockstep (fun b d => b = d ∧ I b) bus bus where
  mapped_eq := by rintro b _ ⟨rfl, -⟩; rfl
  writable_eq := by rintro b _ ⟨rfl, -⟩; rfl
  read_eq := by rintro b _ addr ⟨rfl, -⟩ -; rfl
  write := by rintro b _ addr ⟨rfl, hI⟩ hw v; exact ⟨rfl, h b addr v hI hw⟩

structure Outcome.Alike (R : β → γ → Prop) (o : Outcome α β) (p : Outcome α γ) : Prop where
  result : o.result = p.result
  registers : o.registers = p.registers
  memory : R o.memory p.memory
  accesses : o.accesses = p.accesses

structure Turn.Alike (R : β → γ → Prop) (t : Turn β) (u : Turn γ) : Prop where
  before : t.before = u.before
  memory : R t.memory u.memory
  outcome : t.outcome.Alike R u.outcome

structure Run.Alike (R : β → γ → Prop) (s : Run β) (t : Run γ) : Prop where
  ending : s.ending = t.ending
  registers : s.registers = t.registers
  memory : R s.memory t.memory
  accesses : s.accesses = t.accesses

section Lockstep

variable {R : β → γ → Prop} {bus : Bus β} {bus' : Bus γ} {b : β} {d : γ}

theorem Outcome.Alike.after {o : Outcome α β} {p : Outcome α γ} (h : o.Alike R p) (a : Access) :
    (o.after a).Alike R (p.after a) :=
  ⟨h.result, h.registers, h.memory, congrArg (a :: ·) h.accesses⟩

theorem Outcome.Alike.noting {o : Outcome α β} {p : Outcome α γ} (h : o.Alike R p)
    (ms ms' : List Message) : (o.noting ms).Alike R (p.noting ms') :=
  ⟨h.result, h.registers, h.memory, h.accesses⟩

theorem Microcode.exec_lockstep (hl : bus.Lockstep R bus') (t : Microcode α) (h : R b d) :
    (t.exec bus b).Alike R (t.exec bus' d) := by
  induction t generalizing b d with
  | done r a => exact ⟨rfl, rfl, h, rfl⟩
  | fail r e => exact ⟨rfl, rfl, h, rfl⟩
  | read r addr next ih =>
    simp only [exec, ← hl.mapped_eq h]
    split
    · rename_i hm
      rw [← hl.read_eq h hm]
      exact (ih _ h).after _
    · exact ⟨rfl, rfl, h, rfl⟩
  | write r addr v next ih =>
    simp only [exec, ← hl.writable_eq h]
    split
    · rename_i hw
      exact ((ih (hl.write h hw v)).after _).noting _ _
    · exact ⟨rfl, rfl, h, rfl⟩
  | note m next ih => exact (ih h).noting _ _

namespace Cpu

theorem step_lockstep (hl : bus.Lockstep R bus') (c : Cpu) (h : R b d) :
    (c.step bus b).Alike R (c.step bus' d) :=
  Microcode.exec_lockstep hl _ h

theorem turns_lockstep (hl : bus.Lockstep R bus') (c : Cpu) (h : R b d) (n : Nat) :
    List.Forall₂ (Turn.Alike R) (c.turns bus b n) (c.turns bus' d n) := by
  induction n generalizing c b d with
  | zero => exact .nil
  | succ n ih =>
    have hs := step_lockstep hl c h
    refine .cons ⟨rfl, h, hs⟩ ?_
    rw [← hs.registers]
    exact ih _ hs.memory

theorem after_lockstep (hl : bus.Lockstep R bus') (c : Cpu) (h : R b d) (n : Nat) :
    (c.after bus b n).1 = (c.after bus' d n).1 ∧ R (c.after bus b n).2 (c.after bus' d n).2 := by
  induction n generalizing c b d with
  | zero => exact ⟨rfl, h⟩
  | succ n ih =>
    have hs := step_lockstep hl c h
    rw [after, after, ← hs.registers]
    exact ih _ hs.memory

theorem runFrom_lockstep (hl : bus.Lockstep R bus') (policy : UnknownOpcodes) (n : Nat)
    (r : Registers) (h : R b d) (as : Array Access) (ms ms' : Array Message) :
    (runFrom policy bus n r b as ms).Alike R (runFrom policy bus' n r d as ms') := by
  induction n generalizing r b d as ms ms' with
  | zero => exact ⟨rfl, rfl, h, rfl⟩
  | succ n ih =>
    have hs := step_lockstep hl ⟨r, policy⟩ h
    rw [runFrom, runFrom]
    generalize step ⟨r, policy⟩ bus b = o at hs ⊢
    generalize step ⟨r, policy⟩ bus' d = p at hs ⊢
    obtain ⟨result, r, b, as', ms₁⟩ := o
    obtain ⟨_, _, d, _, ms₂⟩ := p
    obtain ⟨rfl, rfl, hmemory, rfl⟩ := hs
    rcases result with f | (_ | _)
    · exact ⟨rfl, rfl, hmemory, rfl⟩
    · exact ih r hmemory _ _ _
    · exact ⟨rfl, rfl, hmemory, rfl⟩

theorem run_lockstep (hl : bus.Lockstep R bus') (c : Cpu) (h : R b d) (n : Nat) :
    (c.run bus b n).Alike R (c.run bus' d n) :=
  runFrom_lockstep hl c.policy n c.registers h _ _ _

end Cpu

end Lockstep

structure Permissions where
  mapped : UInt16 → Bool
  writable : UInt16 → Bool

/-- A bus with a cell for every address, under permissions that never change. What it does with an
access that they refuse is left open. -/
structure Store (p : Permissions) (β : Type) extends Bus β where
  cell : β → UInt16 → UInt8
  mapped_eq (b : β) : toBus.mapped b = p.mapped
  writable_eq (b : β) : toBus.writable b = p.writable
  read_eq (b : β) {addr : UInt16} (hm : p.mapped addr = true) : toBus.read b addr = cell b addr
  cell_write (b : β) {addr : UInt16} (hw : p.writable addr = true) (v : UInt8) (x : UInt16) :
    cell (toBus.write b addr v) x = if addr = x then v else cell b x

namespace Store

variable {p : Permissions}

def ofFlatMemory (p : Permissions) : Store p FlatMemory where
  toBus := FlatMemory.guarded p.mapped p.writable
  cell := FlatMemory.read
  mapped_eq _ := rfl
  writable_eq _ := rfl
  read_eq _ _ _ := rfl
  cell_write m _ _ v x := m.read_write _ x v

def Agrees (s : Store p β) (t : Store p γ) (b : β) (d : γ) : Prop :=
  ∀ addr, p.mapped addr = true → s.cell b addr = t.cell d addr

theorem lockstep (s : Store p β) (t : Store p γ) : s.Lockstep (s.Agrees t) t.toBus where
  mapped_eq _ := (s.mapped_eq _).trans (t.mapped_eq _).symm
  writable_eq _ := (s.writable_eq _).trans (t.writable_eq _).symm
  read_eq {b d addr} h hm := by
    rw [s.mapped_eq] at hm
    rw [s.read_eq b hm, t.read_eq d hm, h addr hm]
  write {b d addr} h hw v := by
    rw [s.writable_eq] at hw
    intro x hx
    rw [s.cell_write b hw, t.cell_write d hw, h x hx]

theorem keeps (s : Store p β) {addr : UInt16} (haddr : p.writable addr = false) (v : UInt8) :
    s.Lockstep (fun b d => b = d ∧ s.cell b addr = v) s.toBus := by
  refine .of_invariant fun b x w hb hx => ?_
  -- a write that is made is to a writable cell, so to another one
  rw [s.writable_eq] at hx
  have hne : x ≠ addr := by
    rintro rfl
    rw [hx] at haddr
    cases haddr
  rw [s.cell_write b hx, if_neg hne, hb]

end Store

namespace Cpu

/-- Whatever is executed, cells that are not writable keep their values, and of memory nothing but the
mapped cells has any say: not in what steps result in, nor in where they go, nor in those cells
themselves. -/
theorem memory_protected {p : Permissions} (s : Store p β) (t : Store p γ) (c : Cpu) (b : β) (d : γ)
    (n : Nat) :
    (∀ addr, p.writable addr = false →
        s.cell (c.after s.toBus b n).2 addr = s.cell b addr ∧
          s.cell (c.run s.toBus b n).memory addr = s.cell b addr) ∧
      (s.Agrees t b d →
        List.Forall₂ (Turn.Alike (s.Agrees t)) (c.turns s.toBus b n) (c.turns t.toBus d n) ∧
          (c.run s.toBus b n).Alike (s.Agrees t) (c.run t.toBus d n)) := by
  refine ⟨fun addr haddr => ?_, fun h => ?_⟩
  · have hkeeps := s.keeps haddr (s.cell b addr)
    exact ⟨(after_lockstep hkeeps c ⟨rfl, rfl⟩ n).2.2, (run_lockstep hkeeps c ⟨rfl, rfl⟩ n).memory.2⟩
  · exact ⟨turns_lockstep (s.lockstep t) c h n, run_lockstep (s.lockstep t) c h n⟩

def vault : Store ⟨(· != 0xFF00), (· == 0)⟩ (UInt8 × UInt8) where
  -- `INC $00` and `LDA $FF00`, from address one on
  read b addr :=
    if addr = 0 then b.1 else if addr = 0xFF00 then b.2
    else if addr = 1 then 0xE6 else if addr = 3 then 0xAD else if addr = 5 then 0xFF else 0
  write b _ v := (v, b.2)
  mapped _ addr := addr != 0xFF00
  writable _ addr := addr == 0
  cell b addr :=
    if addr = 0 then b.1 else if addr = 0xFF00 then b.2
    else if addr = 1 then 0xE6 else if addr = 3 then 0xAD else if addr = 5 then 0xFF else 0
  mapped_eq _ := rfl
  writable_eq _ := rfl
  read_eq _ _ _ := rfl
  cell_write b addr hw v x := by
    obtain rfl : addr = 0 := eq_of_beq hw
    by_cases hx : x = 0
    · subst hx
      rfl
    · simp [hx, Ne.symm hx]

def prober : Cpu := ⟨⟨0, 0, 0, .powerOn, 0, 1⟩, .skip⟩

theorem memory_protected_in_vault :
    vault.Agrees vault (7, 0x11) (7, 0x22) ∧
      (prober.run vault.toBus (7, 0x11) 3).ending = .faulted (.outOfBounds 0xFF00) ∧
      (prober.run vault.toBus (7, 0x11) 3).memory = (8, 0x11) ∧
      vault.cell (prober.run vault.toBus (7, 0x11) 3).memory 1 = vault.cell (7, 0x11) 1 ∧
      (prober.run vault.toBus (7, 0x11) 3).Alike (vault.Agrees vault)
        (prober.run vault.toBus (7, 0x22) 3) ∧
      List.Forall₂ (Turn.Alike (vault.Agrees vault)) (prober.turns vault.toBus (7, 0x11) 3)
        (prober.turns vault.toBus (7, 0x22) 3) := by
  have hagrees : vault.Agrees vault (7, 0x11) (7, 0x22) := by
    intro addr hm
    have hne : addr ≠ 0xFF00 := by simpa using hm
    simp [vault, hne]
  have hend : (prober.run vault.toBus (7, 0x11) 3).ending = .faulted (.outOfBounds 0xFF00) := by
    decide +kernel
  have hmemory : (prober.run vault.toBus (7, 0x11) 3).memory = (8, 0x11) := by decide +kernel
  obtain ⟨hkept, halike⟩ := memory_protected vault vault prober (7, 0x11) (7, 0x22) 3
  exact ⟨hagrees, hend, hmemory, (hkept 1 rfl).2, (halike hagrees).2, (halike hagrees).1⟩

end Cpu

end Cpu6502
