import Cpu6502.Proofs.Accesses
import Cpu6502.Proofs.AddWithCarry

/-!
Where the program counter goes. `Instruction.nextPc` says it in integers, for each way of going on: to
the next instruction, by the signed offset of a branch, to a word in the instruction or behind a
pointer, or to a word on the stack. The integer may fall outside of memory; a step that succeeds leaves
it modulo 65536 (`Cpu.step_pc`), with all bytes of the instruction consumed.
-/

namespace Cpu6502

variable {β : Type}

def byteAt (read : UInt16 → UInt8) (k : Nat) : Nat := (read (UInt16.ofNat k)).toNat

def wordAt (read : UInt16 → UInt8) (j k : Nat) : Nat := byteAt read j + 256 * byteAt read k

def Mnemonic.condition : Mnemonic → Option (Flag × Bool)
  | .bcc => some (.carry, false)
  | .bcs => some (.carry, true)
  | .bne => some (.zero, false)
  | .beq => some (.zero, true)
  | .bvc => some (.overflow, false)
  | .bvs => some (.overflow, true)
  | .bpl => some (.negative, false)
  | .bmi => some (.negative, true)
  | _ => none

def Instruction.nextPc (read : UInt16 → UInt8) (r : Registers) (i : Instruction) : Int :=
  let p := r.pc.toNat
  let stacked (k : Nat) : Nat := 256 + (r.sp.toNat + k) % 256
  match i.mnemonic with
  | .jmp =>
      let w := wordAt read (p + 1) (p + 2)
      if i.mode = .indirect then wordAt read w (256 * (w / 256) + (w + 1) % 256) else w
  | .jsr => wordAt read (p + 1) (p + 2)
  | .rts => wordAt read (stacked 1) (stacked 2) + 1
  | .rti => wordAt read (stacked 2) (stacked 3)
  | m =>
      match m.condition with
      | some (f, wanted) =>
          if r.status.has f = wanted then p + 2 + signed 1 (byteAt read (p + 1)) else p + 2
      | none => p + i.size

def Opcode.nextPc (read : UInt16 → UInt8) (r : Registers) (o : Opcode) : Int :=
  match o.instruction with
  | some i => i.nextPc read r
  | none => r.pc.toNat + o.size

section Numbers

variable (read : UInt16 → UInt8)

theorem byteAt_eq {a : UInt16} {k : Nat} (h : a.toNat = k % 65536) :
    byteAt read k = (read a).toNat := by
  have ha : UInt16.ofNat k = a := UInt16.toNat_inj.mp (by rw [h, UInt16.toNat_ofNat'])
  rw [byteAt, ha]

theorem wordAt_eq {a b : UInt16} {j k : Nat} (ha : a.toNat = j % 65536)
    (hb : b.toNat = k % 65536) : wordAt read j k = (wordOf (read a) (read b)).toNat := by
  rw [wordAt, byteAt_eq read ha, byteAt_eq read hb, toNat_wordOf, Nat.add_comm]

theorem toNat_emod {w : UInt16} {k : Nat} (h : k = w.toNat) : (w.toNat : Int) = k % 65536 := by
  have hw := w.toNat_lt
  omega

theorem toNat_add_ofNat (a : UInt16) (n : Nat) :
    (a + UInt16.ofNat n).toNat = (a.toNat + n) % 65536 := by
  rw [UInt16.toNat_add, UInt16.toNat_ofNat']
  exact Nat.add_mod_mod _ _ _

theorem toNat_succ_emod {w : UInt16} {k : Nat} (h : k = w.toNat) :
    ((w + 1).toNat : Int) = ((k : Int) + 1) % 65536 := by
  rw [h]
  exact congrArg Nat.cast (toNat_add_ofNat w 1)

theorem toNat_raised {sp s : UInt8} {k : Nat} (h : s.toNat = (sp.toNat + k) % 256) :
    (s + 1).toNat = (sp.toNat + (k + 1)) % 256 := by
  rw [UInt8.toNat_add, h]
  exact Nat.mod_add_mod _ _ _

theorem toNat_stackAddress_of {sp s : UInt8} {k : Nat} (h : s.toNat = (sp.toNat + k) % 256) :
    (stackAddress s).toNat = (256 + (sp.toNat + k) % 256) % 65536 := by
  rw [toNat_stackAddress, h]
  omega

theorem toInt_toInt8 (v : UInt8) : v.toInt8.toInt = signed 1 v.toNat :=
  BitVec.toInt_eq_toNat_bmod v.toBitVec

theorem toNat_toUInt16 (w : Int16) : (w.toUInt16.toNat : Int) = w.toInt % 65536 := by
  have hw : w.toInt = (w.toUInt16.toNat : Int).bmod 65536 := BitVec.toInt_eq_toNat_bmod w.toBitVec
  calc
    (w.toUInt16.toNat : Int) = w.toUInt16.toNat % 65536 := toNat_emod rfl
    _ = w.toInt % 65536 := by rw [hw]; exact Int.bmod_emod.symm

theorem toNat_branchTarget (pc : UInt16) (offset : UInt8) :
    ((branchTarget pc offset).toNat : Int) = (pc.toNat + signed 1 offset.toNat) % 65536 := by
  have hoffset := toNat_toUInt16 offset.toInt8.toInt16
  rw [Int8.toInt_toInt16, toInt_toInt8] at hoffset
  rw [branchTarget, UInt16.toNat_add]
  omega

end Numbers

section Finish

variable (read : UInt16 → UInt8) (bus : Bus β) (b : β) (r : Registers)

theorem Registers.toNat_past (n : Nat) :
    (((r.past 1).past n).pc.toNat : Int) = (r.pc.toNat + (1 + n : Nat)) % 65536 := by
  rw [past_eq, past_eq, toNat_add_ofNat, toNat_add_ofNat]
  omega

theorem wordAt_operand :
    wordAt read (r.pc.toNat + 1) (r.pc.toNat + 2) =
      (AddressingMode.absolute.address read (r.past 1)).toNat := by
  have hsecond : r.pc + UInt16.ofNat 2 = r.pc + 1 + 1 := add_ofNat_succ r.pc 1
  rw [wordAt_eq read (toNat_add_ofNat r.pc 1) (toNat_add_ofNat r.pc 2), hsecond]
  rfl

theorem wordAt_pointee (w : UInt16) :
    wordAt read w.toNat (256 * (w.toNat / 256) + (w.toNat + 1) % 256) =
      (AddressingMode.pointee read w).toNat := by
  have hw := w.toNat_lt
  have hnext : (nextInPage w).toNat =
      (256 * (w.toNat / 256) + (w.toNat + 1) % 256) % 65536 := by
    rw [toNat_nextInPage]
    omega
  exact wordAt_eq read (Nat.mod_eq_of_lt hw).symm hnext

theorem wordAt_pulled {sp s : UInt8} {k : Nat} (h : s.toNat = (sp.toNat + k) % 256) :
    wordAt read (256 + (sp.toNat + (k + 1)) % 256) (256 + (sp.toNat + (k + 2)) % 256) =
      (wordOf (read (stackAddress (s + 1))) (read (stackAddress (s + 1 + 1)))).toNat :=
  have hlow := toNat_raised h
  wordAt_eq read (toNat_stackAddress_of hlow) (toNat_stackAddress_of (toNat_raised hlow))

theorem toNat_relative :
    ((AddressingMode.relative.address read (r.past 1)).toNat : Int) =
      (r.pc.toNat + 2 + signed 1 (byteAt read (r.pc.toNat + 1))) % 65536 := by
  have htarget := toNat_branchTarget ((r.past 1).past 1).pc (read (r.past 1).pc)
  have hoffset : byteAt read (r.pc.toNat + 1) = (read (r.past 1).pc).toNat :=
    byteAt_eq read (toNat_add_ofNat r.pc 1)
  rw [r.toNat_past, ← hoffset] at htarget
  refine Eq.trans htarget ?_
  omega

theorem branch_pc (flag : Flag) (wanted : Bool) :
    let act := Action.branch flag wanted
    let e := AddressingMode.relative.address (bus.read b) (r.past 1)
    let next : Int := r.pc.toNat + 2
    ((act.finish bus b .relative e ((r.past 1).past 1)).pc.toNat : Int) =
      (if r.status.has flag = wanted then
        next + signed 1 (byteAt (bus.read b) (r.pc.toNat + 1)) else next) % 65536 := by
  intro act e next
  have hstatus : ((r.past 1).past 1).status = r.status := rfl
  simp only [act, Action.finish, hstatus]
  split
  · exact toNat_relative (bus.read b) r
  · exact r.toNat_past 1

theorem finish_modify_pc (change : Modification) (mode : AddressingMode) (e : UInt16)
    (s : Registers) : ((Action.modify change).finish bus b mode e s).pc = s.pc := by
  simp only [Action.finish]
  split <;> rfl

theorem Instruction.finish_pc {code : UInt8} {i : Instruction} (hd : decode code = some i) :
    let e := i.mode.address (bus.read b) (r.past 1)
    let s := (r.past 1).past i.mode.operandBytes
    ((i.mnemonic.action.finish bus b i.mode e s).pc.toNat : Int) =
      i.nextPc (bus.read b) r % 65536 := by
  obtain ⟨m, mode⟩ := i
  -- jumps and branches would fit any mode with an address, so the encodings are needed
  have hmode := mode_mem_of_decode hd
  have hsp : r.sp.toNat = (r.sp.toNat + 0) % 256 := (Nat.mod_eq_of_lt r.sp.toNat_lt).symm
  intro e s
  cases m with
  | jmp =>
    obtain rfl | rfl : mode = .absolute ∨ mode = .indirect := by
      simpa [Mnemonic.encodings] using hmode
    · exact toNat_emod (wordAt_operand (bus.read b) r)
    · refine toNat_emod ?_
      rw [wordAt_operand]
      exact wordAt_pointee (bus.read b) _
  | jsr =>
    obtain rfl : mode = .absolute := List.mem_singleton.mp hmode
    exact toNat_emod (wordAt_operand (bus.read b) r)
  | rts =>
    obtain rfl : mode = .implicit := List.mem_singleton.mp hmode
    exact toNat_succ_emod (wordAt_pulled (bus.read b) hsp)
  | rti =>
    obtain rfl : mode = .implicit := List.mem_singleton.mp hmode
    exact toNat_emod (wordAt_pulled (bus.read b) (toNat_raised hsp))
  | bcc | bcs | beq | bne | bmi | bpl | bvc | bvs =>
    obtain rfl : mode = .relative := List.mem_singleton.mp hmode
    exact branch_pc bus b r _ _
  | inc | dec | asl | lsr | rol | ror =>
    change ((Action.finish bus b mode e s (.modify _)).pc.toNat : Int) = _
    rw [finish_modify_pc]
    exact r.toNat_past mode.operandBytes
  | _ => exact r.toNat_past mode.operandBytes

end Finish

namespace Cpu

variable {c : Cpu} {bus : Bus β} {b : β} {s : Step}

theorem pc_of_step (h : (c.step bus b).result = .ok s) :
    ((c.step bus b).registers.pc.toNat : Int) =
      (Opcode.ofCode (bus.read b c.registers.pc)).nextPc (bus.read b) c.registers % 65536 := by
  rw [step_eq_unrestricted h, Opcode.ofCode]
  cases hd : decode (bus.read b c.registers.pc) with
  | none =>
    rw [(step_undocumented hd).1]
    exact c.registers.toNat_past 0
  | some i =>
    rw [(step_documented hd).2]
    exact Instruction.finish_pc bus b c.registers hd

theorem fetched_of_step (h : (c.step bus b).result = .ok s) :
    c.registers.fetched (bus.read b) (Opcode.ofCode (bus.read b c.registers.pc)).size <+:
      (c.step bus b).accesses := by
  rw [accesses_of_step h, schedule_accesses]
  exact List.prefix_append _ _

/-- A step that succeeds has consumed the bytes of its instruction and leaves the program counter where
the instruction goes on, modulo 65536. -/
theorem step_pc {c : Cpu} {bus : Bus β} {b : β} {s : Step} (h : (c.step bus b).result = .ok s) :
    let o := c.step bus b
    let op := Opcode.ofCode (bus.read b c.registers.pc)
    (o.registers.pc.toNat : Int) = op.nextPc (bus.read b) c.registers % 65536 ∧
      c.registers.fetched (bus.read b) op.size <+: o.accesses :=
  ⟨pc_of_step h, fetched_of_step h⟩

def straddling : Bus Unit where
  -- `BCC` at the top of memory; its offset is at the bottom and leads back to the top
  read _ addr := if addr = 0xFFFF then 0x90 else 0x80
  write _ _ _ := ()

theorem step_pc_straddling :
    let c : Cpu := ⟨⟨0, 0, 0, .powerOn, 0, 0xFFFF⟩, .error⟩
    let o := c.step straddling ()
    let op := Opcode.ofCode 0x90
    o.result = .ok .proceed ∧ op.nextPc (straddling.read ()) c.registers = 0x10001 - 128 ∧
      (o.registers.pc.toNat : Int) = op.nextPc (straddling.read ()) c.registers % 65536 ∧
        c.registers.fetched (straddling.read ()) op.size <+: o.accesses := by
  intro c o op
  have h : o.result = .ok .proceed := rfl
  exact ⟨h, by decide +kernel, step_pc h⟩

end Cpu

end Cpu6502
