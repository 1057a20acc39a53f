import Cpu6502.Proofs.Reach
import Cpu6502.Proofs.Turn

/-!
Programs in memory. A line is a documented instruction with the bytes of its operand, and memory
contains code if its bytes lie from an address upward, around the top. What the processor does with
a line at the program counter follows from the kind of the line: it changes registers
(`Line.reaches_internal`, `Line.reaches_immediate`), stores one (`Line.reaches_store`) or goes on elsewhere
(`Line.reaches_jump`).
-/

namespace Cpu6502

structure Line where
  instruction : Instruction
  operand : List UInt8
  documented : instruction.encode?.isSome
  operand_length : operand.length = instruction.mode.operandBytes

namespace Line

def code (l : Line) : UInt8 := l.instruction.encode?.get l.documented

def bytes (l : Line) : List UInt8 := l.code :: l.operand

def clc : Line := ⟨⟨.clc, .implicit⟩, [], rfl, rfl⟩
def sec : Line := ⟨⟨.sec, .implicit⟩, [], rfl, rfl⟩
def brk : Line := ⟨⟨.brk, .implicit⟩, [], rfl, rfl⟩
def lda (v : UInt8) : Line := ⟨⟨.lda, .immediate⟩, [v], rfl, rfl⟩
def adc (v : UInt8) : Line := ⟨⟨.adc, .immediate⟩, [v], rfl, rfl⟩
def sbc (v : UInt8) : Line := ⟨⟨.sbc, .immediate⟩, [v], rfl, rfl⟩
def sta (a : UInt16) : Line := ⟨⟨.sta, .absolute⟩, [lowByte a, highByte a], rfl, rfl⟩
def jmp (a : UInt16) : Line := ⟨⟨.jmp, .absolute⟩, [lowByte a, highByte a], rfl, rfl⟩

theorem decode_code (l : Line) : decode l.code = some l.instruction :=
  encode?_eq_some_iff.mp (Option.some_get l.documented).symm

example : (sta 0x1234).bytes = [0x8D, 0x34, 0x12] := rfl

end Line

namespace FlatMemory

variable {m : FlatMemory} {a : UInt16}

def Contains (m : FlatMemory) (a : UInt16) (vs : List UInt8) : Prop :=
  ∀ k (h : k < vs.length), m.read (a + UInt16.ofNat k) = vs[k]

theorem contains_cons {v : UInt8} {vs : List UInt8} :
    m.Contains a (v :: vs) ↔ m.read a = v ∧ m.Contains (a + 1) vs := by
  constructor
  · intro h
    refine ⟨by simpa using h 0 (Nat.succ_pos _), fun k hk => ?_⟩
    rw [← add_ofNat_succ]
    exact h (k + 1) (Nat.succ_lt_succ hk)
  · rintro ⟨hv, hvs⟩ k hk
    cases k with
    | zero => simpa using hv
    | succ k =>
      rw [add_ofNat_succ]
      exact hvs k (Nat.lt_of_succ_lt_succ hk)

theorem contains_append {vs ws : List UInt8} :
    m.Contains a (vs ++ ws) ↔ m.Contains a vs ∧ m.Contains (a + UInt16.ofNat vs.length) ws := by
  induction vs generalizing a with
  | nil => simp [Contains]
  | cons v vs ih =>
    rw [List.cons_append, contains_cons, contains_cons, ih, List.length_cons, add_ofNat_succ,
      and_assoc]

theorem Contains.write {vs : List UInt8} (h : m.Contains a vs) {addr : UInt16}
    (ha : ∀ k < vs.length, addr ≠ a + UInt16.ofNat k) (v : UInt8) :
    (m.write addr v).Contains a vs := by
  intro k hk
  rw [read_write, if_neg (ha k hk)]
  exact h k hk

theorem load_read {vs : List UInt8} {addr : UInt16}
    (ha : ∀ k < vs.length, addr ≠ a + UInt16.ofNat k) : (m.load a vs).read addr = m.read addr := by
  induction vs generalizing m a with
  | nil => rfl
  | cons v vs ih =>
    have hhead : addr ≠ a := by simpa using ha 0 (Nat.succ_pos _)
    rw [load, ih fun k hk => add_ofNat_succ a k ▸ ha (k + 1) (Nat.succ_lt_succ hk), read_write,
      if_neg hhead.symm]

theorem contains_load {vs : List UInt8} (h : vs.length ≤ 65536) : (m.load a vs).Contains a vs := by
  induction vs generalizing m a with
  | nil => exact fun k hk => absurd hk (Nat.not_lt_zero k)
  | cons v vs ih =>
    rw [List.length_cons] at h
    refine contains_cons.mpr ⟨?_, ih (Nat.le_of_succ_le h)⟩
    rw [load, load_read, read_write, if_pos rfl]
    -- the cells above are not `a`, as there are less than a whole memory of them
    intro k hk
    rw [Ne, ← UInt16.toNat_inj]
    simp only [UInt16.toNat_add, UInt16.toNat_ofNat', UInt16.toNat_one]
    have ha := a.toNat_lt
    omega

end FlatMemory

namespace Line

variable {c : Cpu} {m : FlatMemory} {l : Line}

theorem decode_read (h : m.Contains c.registers.pc l.bytes) :
    decode (m.read c.registers.pc) = some l.instruction := by
  rw [(FlatMemory.contains_cons.mp h).1, l.decode_code]

theorem operand_read (h : m.Contains c.registers.pc l.bytes) :
    m.Contains (c.registers.past 1).pc l.operand := (FlatMemory.contains_cons.mp h).2

theorem step_line (h : m.Contains c.registers.pc l.bytes) :
    let o := c.step FlatMemory.bus m
    let act := l.instruction.mnemonic.action
    let mode := l.instruction.mode
    let e := mode.address m.read (c.registers.past 1)
    let s := (c.registers.past 1).past mode.operandBytes
    o.result = .ok act.answer ∧ o.registers = act.finish FlatMemory.bus m mode e s ∧
      o.memory = ((act.tail FlatMemory.bus m mode e s).map (·.access)).foldl
        FlatMemory.bus.served m := by
  have hd := decode_read h
  exact ⟨(Cpu.step_flat hd).1, (Cpu.step_flat hd).2.1, Cpu.memory_of_tail hd⟩

theorem reaches_internal {effect : Registers → Registers} (h : m.Contains c.registers.pc l.bytes)
    (ha : l.instruction.mnemonic.action = .internal effect) :
    c.Reaches FlatMemory.bus 1 m { c with registers := effect (c.registers.past 1) } m := by
  have hmode : l.instruction.mode = .implicit := by
    have hfits := decode_fits l.decode_code
    rw [ha] at hfits
    exact eq_of_beq hfits
  obtain ⟨hresult, hregisters, hmemory⟩ := step_line h
  rw [ha] at hresult hregisters hmemory
  rw [hmode] at hregisters
  exact .single hresult hregisters hmemory

theorem reaches_immediate {effect : Registers → UInt8 → Registers} {v : UInt8}
    (h : m.Contains c.registers.pc l.bytes) (hmode : l.instruction.mode = .immediate)
    (hv : l.operand = [v]) (ha : l.instruction.mnemonic.action = .consume effect) :
    c.Reaches FlatMemory.bus 1 m { c with registers := effect (c.registers.past 2) v } m := by
  have hread : m.read (c.registers.past 1).pc = v := by
    have hop := operand_read h
    rw [hv] at hop
    exact (FlatMemory.contains_cons.mp hop).1
  obtain ⟨hresult, hregisters, hmemory⟩ := step_line h
  rw [ha] at hresult hregisters hmemory
  rw [hmode] at hregisters hmemory
  refine .single hresult (hregisters.trans ?_) hmemory
  rw [← hread]
  rfl

theorem absolute_address {a : UInt16} (h : m.Contains c.registers.pc l.bytes)
    (hop : l.operand = [lowByte a, highByte a]) :
    AddressingMode.absolute.address m.read (c.registers.past 1) = a := by
  have hread := operand_read h
  rw [hop, FlatMemory.contains_cons, FlatMemory.contains_cons] at hread
  rw [AddressingMode.address, hread.1, hread.2.1, wordOf_bytes]

theorem reaches_store {source : Registers → UInt8} {a : UInt16}
    (h : m.Contains c.registers.pc l.bytes) (hmode : l.instruction.mode = .absolute)
    (hop : l.operand = [lowByte a, highByte a])
    (ha : l.instruction.mnemonic.action = .store source) :
    c.Reaches FlatMemory.bus 1 m { c with registers := c.registers.past 3 }
      (m.write a (source (c.registers.past 3))) := by
  have haddr := absolute_address h hop
  obtain ⟨hresult, hregisters, hmemory⟩ := step_line h
  rw [ha] at hresult hregisters hmemory
  rw [hmode, haddr] at hregisters hmemory
  exact .single hresult hregisters hmemory

theorem reaches_jump {a : UInt16} (h : m.Contains c.registers.pc (jmp a).bytes) :
    c.Reaches FlatMemory.bus 1 m { c with registers := { c.registers with pc := a } } m := by
  have haddr := absolute_address h rfl
  obtain ⟨hresult, hregisters, hmemory⟩ := step_line h
  refine .single hresult (hregisters.trans ?_) hmemory
  exact congrArg (fun pc => { c.registers with pc := pc }) haddr

end Line

end Cpu6502
