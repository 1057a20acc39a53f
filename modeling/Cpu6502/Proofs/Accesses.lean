import Cpu6502.Proofs.Turn

/-!
The accesses of an instruction, name by name: its own bytes from the program counter upward, then
its pointer, then what it does with its operand or the stack. A step that succeeds makes exactly
these (`Cpu.step_accesses_exact`), wherever they fall: that an operand lies inside the instruction, or
a pointer in the stack, changes nothing.
-/

namespace Cpu6502

variable {β : Type}

def Access.get (read : UInt16 → UInt8) (addr : UInt16) : Access := .read addr (read addr)

def Registers.fetched (read : UInt16 → UInt8) (r : Registers) (n : Nat) : List Access :=
  (List.range n).map fun k => .get read (r.pc + UInt16.ofNat k)

def Registers.pulled (read : UInt16 → UInt8) (r : Registers) (n : Nat) : List Access :=
  (List.range n).map fun k => .get read (stackAddress (r.sp + UInt8.ofNat (k + 1)))

def AddressingMode.pointerAccesses (read : UInt16 → UInt8) (r : Registers) (mode : AddressingMode) :
    List Access :=
  match mode.pointer? read r with
  | some p => [.get read p, .get read (nextInPage p)]
  | none => []

namespace Instruction

/-- What an instruction accesses once it has the effective address `e`, if `r` is what it
started from. -/
def dataAccesses (read : UInt16 → UInt8) (r : Registers) (e : UInt16) (i : Instruction) :
    List Access :=
  let change (v : UInt8) : List Access :=
    if i.mode = .accumulator then [] else [.get read e, .write e v]
  match i.mnemonic with
  | .lda | .ldx | .ldy | .adc | .sbc | .and | .ora | .eor | .cmp | .cpx | .cpy | .bit =>
      if i.mode = .immediate then [] else [.get read e]
  | .sta => [.write e r.a]
  | .stx => [.write e r.x]
  | .sty => [.write e r.y]
  | .inc => change (read e + 1)
  | .dec => change (read e - 1)
  | .asl => change (read e <<< 1)
  | .lsr => change (read e >>> 1)
  | .rol => change (read e <<< 1 ||| (r.status.has .carry).toUInt8)
  | .ror => change (read e >>> 1 ||| (r.status.has .carry).toUInt8 <<< 7)
  | .pha => [.write (stackAddress r.sp) r.a]
  | .php => [.write (stackAddress r.sp) r.status.toStack]
  | .pla | .plp => r.pulled read 1
  | .jsr =>
      [.write (stackAddress r.sp) (highByte (r.pc + 2)),
        .write (stackAddress (r.sp - 1)) (lowByte (r.pc + 2))]
  | .rts => r.pulled read 2
  | .rti => r.pulled read 3
  | _ => []

def readsOperand (i : Instruction) : Bool :=
  match i.mnemonic.action with
  | .consume _ => true
  | .modify _ => i.mode != .accumulator
  | _ => false

/-- How many accesses come before the operand is read. An immediate operand is one of the bytes of its
instruction. -/
def lead (i : Instruction) : Nat :=
  if i.mode = .immediate then 1 else 1 + i.mode.phases.length

end Instruction

def Opcode.accesses (read : UInt16 → UInt8) (r : Registers) (o : Opcode) : List Access :=
  r.fetched read o.size ++
    match o.instruction with
    | some i =>
        i.mode.pointerAccesses read (r.past 1) ++
          i.dataAccesses read r (i.mode.address read (r.past 1))
    | none => []

theorem Opcode.accesses_of_decode {code : UInt8} {i : Instruction} (hd : decode code = some i)
    (read : UInt16 → UInt8) (r : Registers) :
    (ofCode code).accesses read r =
      (r.fetched read (i.mode.operandBytes + 1) ++ i.mode.pointerAccesses read (r.past 1)) ++
        i.dataAccesses read r (i.mode.address read (r.past 1)) := by
  rw [ofCode, hd, List.append_assoc, Nat.add_comm]
  rfl

theorem Registers.fetched_succ (read : UInt16 → UInt8) (r : Registers) (n : Nat) :
    r.fetched read (n + 1) = .get read r.pc :: (r.past 1).fetched read n := by
  rw [fetched, List.range_succ_eq_map, List.map_cons, List.map_map]
  have hhead : r.pc + UInt16.ofNat 0 = r.pc := by simp
  rw [hhead]
  exact congrArg (_ :: ·) (List.map_congr_left fun k _ =>
    congrArg (Access.get read) (add_ofNat_succ r.pc k))

theorem fetches_accesses (bus : Bus β) (b : β) (r : Registers) (n : Nat) :
    (fetches bus b r n).map (·.access) = r.fetched (bus.read b) n := by
  induction n generalizing r with
  | zero => rfl
  | succ n ih =>
    rw [Registers.fetched_succ, ← ih]
    rfl

theorem pulls_accesses (bus : Bus β) (b : β) (r : Registers) (n : Nat) :
    (pulls bus b r n).map (·.access) = r.pulled (bus.read b) n := by
  induction n generalizing r with
  | zero => rfl
  | succ n ih =>
    rw [pulls, List.map_cons, ih, Registers.pulled, Registers.pulled, List.range_succ_eq_map,
      List.map_cons, List.map_map]
    refine congrArg (_ :: ·) (List.map_congr_left fun k _ => ?_)
    have hsp : r.sp + 1 + UInt8.ofNat (k + 1) = r.sp + UInt8.ofNat (k + 1 + 1) := by
      simp only [UInt8.ofNat_add]
      grind
    exact congrArg (fun sp => Access.get _ (stackAddress sp)) hsp

theorem AddressingMode.schedule_accesses (bus : Bus β) (b : β) (r : Registers)
    (mode : AddressingMode) :
    (mode.schedule bus b r).map (·.access) =
      r.fetched (bus.read b) mode.operandBytes ++ mode.pointerAccesses (bus.read b) r := by
  rw [schedule, List.map_append, fetches_accesses, pointerAccesses]
  cases mode.pointer? (bus.read b) r with
  | none => rfl
  | some p => rfl

theorem Instruction.tail_accesses {code : UInt8} {i : Instruction} (hd : decode code = some i)
    (bus : Bus β) (b : β) (r : Registers) (e : UInt16) :
    (i.mnemonic.action.tail bus b i.mode e ((r.past 1).past i.mode.operandBytes)).map (·.access) =
      i.dataAccesses (bus.read b) r e := by
  have hfits := decode_fits hd
  obtain ⟨m, mode⟩ := i
  simp only at hfits ⊢
  rw [Registers.past_eq, Registers.past_eq]
  cases m with
  | jsr =>
    obtain rfl : mode = .absolute := eq_of_beq hfits
    have hpc : r.pc + 1 + 2 - 1 = r.pc + 2 := by grind
    simp [Mnemonic.action, Action.tail, dataAccesses, pushes, AddressingMode.operandBytes, hpc]
  | lda | ldx | ldy | adc | sbc | and | ora | eor | cmp | cpx | cpy | bit =>
    cases mode <;> rfl
  | inc | dec | asl | lsr | rol | ror =>
    cases mode <;> rfl
  | pla | plp => exact pulls_accesses bus b _ 1
  | rts => exact pulls_accesses bus b _ 2
  | rti => exact pulls_accesses bus b _ 3
  | _ => rfl

namespace Cpu

theorem prelude_accesses (c : Cpu) (bus : Bus β) (b : β) (mode : AddressingMode) :
    (c.prelude bus b mode).map (·.access) =
      c.registers.fetched (bus.read b) (mode.operandBytes + 1) ++
        mode.pointerAccesses (bus.read b) (c.registers.past 1) := by
  rw [prelude, List.map_cons, AddressingMode.schedule_accesses, Registers.fetched_succ]
  rfl

theorem schedule_accesses (c : Cpu) (bus : Bus β) (b : β) :
    (c.schedule bus b).map (·.access) =
      (Opcode.ofCode (bus.read b c.registers.pc)).accesses (bus.read b) c.registers := by
  cases hd : decode (bus.read b c.registers.pc) with
  | none =>
    rw [schedule, hd, Opcode.ofCode, hd]
    simp [Opcode.accesses, Opcode.size, Registers.fetched, Access.get]
  | some i =>
    rw [schedule_documented hd, List.map_append, prelude_accesses, tail,
      Instruction.tail_accesses hd, Opcode.accesses_of_decode hd]

theorem accesses_prefix (c : Cpu) (bus : Bus β) (b : β) :
    (c.step bus b).accesses <+:
      (Opcode.ofCode (bus.read b c.registers.pc)).accesses (bus.read b) c.registers := by
  rw [← schedule_accesses, ← step_accesses]
  rcases c.step_cut bus b with hfree | ⟨a, rest, hcut, -⟩
  · exact ⟨[], (List.append_nil _).trans (congrArg Outcome.accesses hfree)⟩
  · rw [hcut]
    exact List.prefix_append _ _

end Cpu

namespace Access

def ReadsFirst (as : List Access) : Prop :=
  as.Pairwise fun p q => p.isWrite = true → q.isWrite = true

theorem ReadsFirst.append {reads as : List Access} (hr : ∀ a ∈ reads, a.isWrite = false)
    (has : ReadsFirst as) : ReadsFirst (reads ++ as) := by
  refine List.pairwise_append.mpr ⟨List.pairwise_of_forall_mem_list ?_, has, ?_⟩ <;>
    intro p hp q _ hw <;> rw [hr p hp] at hw <;> cases hw

theorem readsFirst_reads {reads : List Access} (hr : ∀ a ∈ reads, a.isWrite = false) :
    ReadsFirst reads := by
  simpa using ReadsFirst.append hr .nil

end Access

theorem Registers.fetched_reads (read : UInt16 → UInt8) (r : Registers) (n : Nat) :
    ∀ a ∈ r.fetched read n, a.isWrite = false := by
  simp [fetched, Access.get, Access.isWrite]

theorem Registers.pulled_reads (read : UInt16 → UInt8) (r : Registers) (n : Nat) :
    ∀ a ∈ r.pulled read n, a.isWrite = false := by
  simp [pulled, Access.get, Access.isWrite]

theorem AddressingMode.pointer_reads (read : UInt16 → UInt8) (r : Registers)
    (mode : AddressingMode) : ∀ a ∈ mode.pointerAccesses read r, a.isWrite = false := by
  rw [pointerAccesses]
  cases mode.pointer? read r <;> simp [Access.get, Access.isWrite]

theorem Instruction.data_readsFirst (read : UInt16 → UInt8) (r : Registers) (e : UInt16)
    (i : Instruction) : Access.ReadsFirst (i.dataAccesses read r e) := by
  obtain ⟨m, mode⟩ := i
  cases m with
  | pla | plp | rts | rti => exact Access.readsFirst_reads (r.pulled_reads read _)
  | lda | ldx | ldy | adc | sbc | and | ora | eor | cmp | cpx | cpy | bit
  | inc | dec | asl | lsr | rol | ror =>
    simp only [dataAccesses]
    split <;> simp [Access.ReadsFirst, Access.get, Access.isWrite]
  | _ => simp [dataAccesses, Access.ReadsFirst, Access.isWrite]

theorem Opcode.accesses_readsFirst (read : UInt16 → UInt8) (r : Registers) (o : Opcode) :
    Access.ReadsFirst (o.accesses read r) := by
  refine .append (r.fetched_reads read _) ?_
  cases o.instruction with
  | none => exact .nil
  | some i => exact .append (i.mode.pointer_reads read _) (i.data_readsFirst read r _)

theorem AddressingMode.length_front (read : UInt16 → UInt8) (r s : Registers)
    (mode : AddressingMode) :
    (r.fetched read (mode.operandBytes + 1) ++ mode.pointerAccesses read s).length =
      1 + mode.phases.length := by
  cases mode <;> rfl

theorem decode_immediate {code : UInt8} {i : Instruction} (hd : decode code = some i)
    (hi : i.mode = .immediate) (read : UInt16 → UInt8) (r : Registers) (e : UInt16) :
    i.dataAccesses read r e = [] := by
  obtain ⟨m, mode⟩ := i
  obtain rfl : mode = .immediate := hi
  rw [decode_eq_some_iff] at hd
  cases m <;> first | rfl | simp [Mnemonic.encodings] at hd

theorem Instruction.data_reads {i : Instruction} (hi : i.readsOperand)
    (hmode : i.mode ≠ .immediate) (read : UInt16 → UInt8) (r : Registers) (e : UInt16) :
    (i.dataAccesses read r e).filter (!·.isWrite) = [.get read e] := by
  obtain ⟨m, mode⟩ := i
  cases m with
  | lda | ldx | ldy | adc | sbc | and | ora | eor | cmp | cpx | cpy | bit =>
    simp [dataAccesses, if_neg hmode, Access.get, Access.isWrite]
  | inc | dec | asl | lsr | rol | ror =>
    have hacc : mode ≠ .accumulator := by simpa [readsOperand, Mnemonic.action] using hi
    simp [dataAccesses, if_neg hacc, Access.get, Access.isWrite]
  | _ => cases hi

theorem Instruction.drop_lead {code : UInt8} {i : Instruction} (hd : decode code = some i)
    (hi : i.readsOperand) (read : UInt16 → UInt8) (r : Registers) :
    (((Opcode.ofCode code).accesses read r).drop i.lead).filter (!·.isWrite) =
      [.get read (i.mode.address read (r.past 1))] := by
  rw [Opcode.accesses_of_decode hd]
  by_cases hmode : i.mode = .immediate
  · rw [decode_immediate hd hmode, lead, if_pos hmode, hmode]
    rfl
  · rw [lead, if_neg hmode, List.drop_left' (i.mode.length_front read r (r.past 1))]
    exact data_reads hi hmode read r _

namespace Cpu

/-- A step that succeeds makes the accesses of its opcode, all of them and no others, in order. So
its reads come before its writes, and an instruction that takes an operand from its effective
address reads it once. -/
theorem step_accesses_exact {c : Cpu} {bus : Bus β} {b : β} {s : Step}
    (h : (c.step bus b).result = .ok s) :
    let o := c.step bus b
    let read := bus.read b
    let op := Opcode.ofCode (read c.registers.pc)
    o.accesses = op.accesses read c.registers ∧ Access.ReadsFirst o.accesses ∧
      ∀ i, op.instruction = some i → i.readsOperand →
        (o.accesses.drop i.lead).filter (!·.isWrite) =
          [.get read (i.mode.address read (c.registers.past 1))] := by
  intro o read op
  have ho : o.accesses = op.accesses read c.registers :=
    (accesses_of_step h).trans (c.schedule_accesses bus b)
  rw [ho]
  exact ⟨rfl, op.accesses_readsFirst read _, fun i hd hi => i.drop_lead hd hi read _⟩

def selfIncrement : Bus UInt8 where
  -- `INC $0001`, whose own operand byte is the one cell there is
  read cell addr := if addr = 0 then 0xEE else if addr = 1 then cell else 0
  write cell addr v := if addr = 1 then v else cell

theorem accesses_of_self_increment :
    let o := powerOn.step selfIncrement 1
    let read := selfIncrement.read 1
    let op := Opcode.ofCode 0xEE
    o.result = .ok .proceed ∧
      o.accesses = [.read 0 0xEE, .read 1 1, .read 2 0, .read 1 1, .write 1 2] ∧
      o.accesses = op.accesses read .powerOn ∧ Access.ReadsFirst o.accesses ∧
      ∀ i, op.instruction = some i → i.readsOperand →
        (o.accesses.drop i.lead).filter (!·.isWrite) =
          [.get read (i.mode.address read (Registers.powerOn.past 1))] := by
  have h : (powerOn.step selfIncrement 1).result = .ok .proceed := rfl
  exact ⟨h, by decide +kernel, step_accesses_exact h⟩

end Cpu

end Cpu6502
