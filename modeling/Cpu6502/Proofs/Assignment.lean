import Cpu6502.Proofs.Accesses
import Cpu6502.Proofs.Endings

/-!
Which instructions change which register, and which cells they write. A step changes a register only
if its instruction assigns it, and makes a write only where its instruction writes, also when the step
fails half way (`Cpu.changes_assigned`). A register that is not assigned keeps its value through the
whole instruction (`Instruction.finish_get`) and in front of each of its accesses
(`Cpu.get_of_split`).
-/

namespace Cpu6502

variable {β : Type}

inductive Register where
  | a
  | x
  | y
  | sp
deriving DecidableEq

def Registers.get (r : Registers) : Register → UInt8
  | .a => r.a
  | .x => r.x
  | .y => r.y
  | .sp => r.sp

namespace Instruction

def assigns (i : Instruction) : Register → Bool
  | .a =>
      match i.mnemonic with
      | .lda | .txa | .tya | .pla | .adc | .sbc | .and | .ora | .eor => true
      | .asl | .lsr | .rol | .ror => i.mode == .accumulator
      | _ => false
  | .x =>
      match i.mnemonic with
      | .ldx | .tax | .tsx | .inx | .dex => true
      | _ => false
  | .y =>
      match i.mnemonic with
      | .ldy | .tay | .iny | .dey => true
      | _ => false
  | .sp =>
      match i.mnemonic with
      | .txs | .pha | .php | .pla | .plp | .jsr | .rts | .rti => true
      | _ => false

def written (read : UInt16 → UInt8) (r : Registers) (i : Instruction) : List UInt16 :=
  let e := i.mode.address read (r.past 1)
  match i.mnemonic with
  | .sta | .stx | .sty | .inc | .dec => [e]
  | .asl | .lsr | .rol | .ror => if i.mode = .accumulator then [] else [e]
  | .pha | .php => [stackAddress r.sp]
  | .jsr => [stackAddress r.sp, stackAddress (r.sp - 1)]
  | _ => []

theorem writes_of_written {read : UInt16 → UInt8} {r : Registers} {i : Instruction} {addr : UInt16}
    (h : addr ∈ i.written read r) : i.writes = true := by
  obtain ⟨m, mode⟩ := i
  cases m with
  | asl | lsr | rol | ror =>
    have hacc : mode ≠ .accumulator := by
      intro hacc
      simp [written, hacc] at h
    simpa [writes] using hacc
  | sta | stx | sty | inc | dec | pha | php | jsr => rfl
  | _ => cases h

theorem addr_mem_written {read : UInt16 → UInt8} {r : Registers} {i : Instruction} {a : Access}
    (ha : a ∈ i.dataAccesses read r (i.mode.address read (r.past 1))) (hw : a.isWrite = true) :
    a.addr ∈ i.written read r := by
  obtain ⟨m, mode⟩ := i
  cases a with
  | read addr v => cases hw
  | write addr v =>
    cases m with
    | lda | ldx | ldy | adc | sbc | and | ora | eor | cmp | cpx | cpy | bit
    | asl | lsr | rol | ror | inc | dec =>
      simp only [dataAccesses] at ha
      split at ha <;> simp_all [written, Access.get, Access.addr]
    | pla | plp | rts | rti =>
      have hread := r.pulled_reads read _ _ ha
      cases hread
    | jsr =>
      have hpair : addr = stackAddress r.sp ∧ v = highByte (r.pc + 2) ∨
          addr = stackAddress (r.sp - 1) ∧ v = lowByte (r.pc + 2) := by
        simpa [dataAccesses] using ha
      simpa [written, Access.addr] using hpair.imp And.left And.left
    | _ => simp_all [dataAccesses, written, Access.addr]

theorem finish_get {code : UInt8} {i : Instruction} (hd : decode code = some i) {reg : Register}
    (h : i.assigns reg = false) (bus : Bus β) (b : β) (e : UInt16) (s : Registers) :
    (i.mnemonic.action.finish bus b i.mode e s).get reg = s.get reg := by
  obtain ⟨m, mode⟩ := i
  have hmode := mode_mem_of_decode hd
  cases m with
  | bcc | bcs | beq | bne | bmi | bpl | bvc | bvs =>
    simp only [Mnemonic.action, Action.finish]
    split <;> rfl
  | inc | dec =>
    have hacc : mode ≠ .accumulator := by
      intro hacc
      rw [hacc] at hmode
      revert hmode
      decide
    simp only [Mnemonic.action, Action.finish, if_neg hacc]
    cases reg <;> rfl
  | asl | lsr | rol | ror =>
    by_cases hacc : mode = .accumulator
    · subst hacc
      cases reg <;> first | rfl | cases h
    · simp only [Mnemonic.action, Action.finish, if_neg hacc]
      cases reg <;> rfl
  | _ => cases reg <;> first | rfl | cases h

theorem phases_of_not_assigns {code : UInt8} {i : Instruction} (hd : decode code = some i)
    (h : i.assigns .sp = false) : .push ∉ i.phases ∧ .pull ∉ i.phases := by
  revert h
  apply of_decode hd
  intro m
  cases m <;> decide

end Instruction

theorem Registers.past_get (r : Registers) (n : Nat) (reg : Register) :
    (r.past n).get reg = r.get reg := by
  rw [past_eq]
  cases reg <;> rfl

theorem FlatMemory.read_served {m : FlatMemory} {as : List Access} {addr : UInt16}
    (h : ∀ a ∈ as, a.isWrite = true → a.addr ≠ addr) :
    (as.foldl FlatMemory.bus.served m).read addr = m.read addr := by
  induction as generalizing m with
  | nil => rfl
  | cons a as ih =>
    obtain ⟨ha, has⟩ := List.forall_mem_cons.mp h
    rw [List.foldl_cons, ih has]
    cases a with
    | read other v => rfl
    | write other v =>
      have hne : other ≠ addr := ha rfl
      exact (m.read_write other addr v).trans (if_neg hne)

namespace Cpu

variable {c : Cpu} {bus : Bus β} {b : β}

def Fetches (c : Cpu) (bus : Bus β) (b : β) (i : Instruction) : Prop :=
  bus.mapped b c.registers.pc = true ∧ decode (bus.read b c.registers.pc) = some i

theorem get_of_split {past rest : List Moment} {m : Moment} {reg : Register}
    (hs : c.schedule bus b = past ++ m :: rest)
    (h : ∀ i, decode (bus.read b c.registers.pc) = some i → i.assigns reg = false) :
    m.registers.get reg = c.registers.get reg := by
  have hpaced := c.schedule_paced bus b
  have hphases := c.schedule_phases bus b
  rw [hs] at hpaced hphases
  obtain ⟨⟨p, hregisters⟩, -⟩ := hpaced.of_split
  rw [hregisters, Registers.advance_eq]
  cases reg with
  | a | x | y => cases m.phase <;> rfl
  | sp =>
    -- the stack pointer is where it was because nothing is pushed or pulled
    have hstill : .push ∉ (past ++ m :: rest).map (·.phase) ∧
        .pull ∉ (past ++ m :: rest).map (·.phase) := by
      rw [hphases, Opcode.phases, Opcode.ofCode]
      cases hd : decode (bus.read b c.registers.pc) with
      | none => simp
      | some i => simpa using Instruction.phases_of_not_assigns hd (h i hd)
    simp only [List.map_append, List.map_cons, List.mem_append, List.mem_cons, not_or] at hstill
    obtain ⟨⟨hpush, -⟩, hpull, hlast, -⟩ := hstill
    rw [List.count_eq_zero.mpr hpush, List.count_eq_zero.mpr hpull]
    cases hp : m.phase with
    | pull => exact absurd hp.symm hlast
    | _ => simp [Registers.get, Phase.attempt]

theorem step_get {reg : Register}
    (h : ∀ i, decode (bus.read b c.registers.pc) = some i → i.assigns reg = false) :
    (c.step bus b).registers.get reg = c.registers.get reg := by
  cases hr : (c.step bus b).result with
  | ok s =>
    rw [step_eq_unrestricted hr]
    cases hd : decode (bus.read b c.registers.pc) with
    | none => rw [(step_undocumented hd).1, Registers.past_get]
    | some i =>
      rw [(step_documented hd).2, Instruction.finish_get hd (h i hd), Registers.past_get,
        Registers.past_get]
  | error e =>
    rcases step_error_cases hr with ⟨-, -, hregisters, -⟩ | ⟨past, m, rest, hs, -, hregisters, -⟩
    · rw [hregisters, Registers.past_get]
    · rw [hregisters, get_of_split hs h]

theorem fetches_of_get_ne {reg : Register}
    (h : (c.step bus b).registers.get reg ≠ c.registers.get reg) :
    ∃ i, c.Fetches bus b i ∧ i.assigns reg = true := by
  cases hm : bus.mapped b c.registers.pc with
  | false =>
    rw [step_unmapped hm] at h
    exact absurd rfl h
  | true =>
    cases hd : decode (bus.read b c.registers.pc) with
    | none => exact absurd (step_get (by simp [hd])) h
    | some i =>
      cases hi : i.assigns reg with
      | true => exact ⟨i, ⟨hm, hd⟩, hi⟩
      | false => exact absurd (step_get (by simp [hd, hi])) h

theorem fetches_of_write {a : Access} (ha : a ∈ (c.step bus b).accesses)
    (hw : a.isWrite = true) :
    ∃ i, c.Fetches bus b i ∧ a.addr ∈ i.written (bus.read b) c.registers := by
  cases hm : bus.mapped b c.registers.pc with
  | false =>
    rw [step_unmapped hm] at ha
    cases ha
  | true =>
    have hall := (c.accesses_prefix bus b).subset ha
    rw [Opcode.accesses, Opcode.ofCode] at hall
    rcases List.mem_append.mp hall with hfetch | hrest
    · rw [c.registers.fetched_reads _ _ a hfetch] at hw
      cases hw
    · cases hd : decode (bus.read b c.registers.pc) with
      | none =>
        rw [hd] at hrest
        cases hrest
      | some i =>
        rw [hd] at hrest
        rcases List.mem_append.mp hrest with hpointer | hdata
        · rw [i.mode.pointer_reads _ _ a hpointer] at hw
          cases hw
        · exact ⟨i, ⟨hm, hd⟩, Instruction.addr_mem_written hdata hw⟩

theorem write_of_memory_ne (h : (c.step bus b).memory ≠ b) :
    ∃ a ∈ (c.step bus b).accesses, a.isWrite = true := by
  by_cases hw : ∃ a ∈ (c.step bus b).accesses, a.isWrite = true
  · exact hw
  · refine absurd ?_ h
    rw [step_memory]
    exact bus.foldl_served_reads b (by simpa using hw)

theorem memory_of_not_writes {i : Instruction} (hd : decode (bus.read b c.registers.pc) = some i)
    (hi : i.writes = false) : (c.step bus b).memory = b := by
  rw [step_memory]
  apply bus.foldl_served_reads
  intro a ha
  apply Bool.eq_false_iff.mpr
  intro hw
  obtain ⟨j, ⟨-, hj⟩, hwritten⟩ := fetches_of_write ha hw
  obtain rfl : i = j := Option.some_inj.mp (hd.symm.trans hj)
  rw [Instruction.writes_of_written hwritten] at hi
  cases hi

theorem write_of_read_ne {m : FlatMemory} {addr : UInt16}
    (h : (c.step FlatMemory.bus m).memory.read addr ≠ m.read addr) :
    ∃ a ∈ (c.step FlatMemory.bus m).accesses, a.isWrite = true ∧ a.addr = addr := by
  by_cases hwrite : ∃ a ∈ (c.step FlatMemory.bus m).accesses, a.isWrite = true ∧ a.addr = addr
  · exact hwrite
  · refine absurd ?_ h
    rw [step_memory]
    exact FlatMemory.read_served fun a ha hw haddr => hwrite ⟨a, ha, hw, haddr⟩

/-- Whether a step succeeds or not, a register has changed only if an instruction was fetched that
assigns it, and the bus has taken a write only if one was fetched that writes. In flat memory the only
cells that have changed are those that the instruction writes. -/
theorem changes_assigned (c : Cpu) (bus : Bus β) (b : β) :
    let o := c.step bus b
    (∀ reg, o.registers.get reg ≠ c.registers.get reg →
        ∃ i, c.Fetches bus b i ∧ i.assigns reg = true) ∧
      ((∃ a ∈ o.accesses, a.isWrite = true) → ∃ i, c.Fetches bus b i ∧ i.writes = true) ∧
      (o.memory ≠ b → ∃ i, c.Fetches bus b i ∧ i.writes = true) ∧
      ∀ (m : FlatMemory) addr, (c.step FlatMemory.bus m).memory.read addr ≠ m.read addr →
        ∃ i, c.Fetches FlatMemory.bus m i ∧ addr ∈ i.written m.read c.registers := by
  intro o
  have hwrite : (∃ a ∈ o.accesses, a.isWrite = true) →
      ∃ i, c.Fetches bus b i ∧ i.writes = true := by
    intro h
    obtain ⟨a, ha, hw⟩ := h
    obtain ⟨i, hi, hwritten⟩ := fetches_of_write ha hw
    exact ⟨i, hi, Instruction.writes_of_written hwritten⟩
  refine ⟨fun reg h => fetches_of_get_ne h, hwrite, fun h => hwrite (write_of_memory_ne h), ?_⟩
  intro m addr h
  obtain ⟨a, ha, hw, rfl⟩ := write_of_read_ne h
  exact fetches_of_write ha hw

theorem changes_assigned_of_refusal :
    let o := returning.step returns ()
    let pushing : Cpu := { registers := { Registers.powerOn with a := 0x2A } }
    let m := FlatMemory.zeroed.write 0 0x48
    (o.result = .error (.outOfBounds 0x0102) ∧ o.registers.get .sp ≠ returning.registers.get .sp ∧
        ∃ i, returning.Fetches returns () i ∧ i.assigns .sp = true) ∧
      (pushing.step FlatMemory.bus m).memory.read 0x0100 = 0x2A ∧ m.read 0x0100 = 0 ∧
        ∃ i, pushing.Fetches FlatMemory.bus m i ∧ 0x0100 ∈ i.written m.read pushing.registers := by
  intro o pushing m
  have hsp : o.registers.get .sp ≠ returning.registers.get .sp := by decide +kernel
  have hd : decode (m.read pushing.registers.pc) = some ⟨.pha, .implicit⟩ := by
    have hcode : m.read pushing.registers.pc = 0x48 := by
      simp [m, pushing, Registers.powerOn, FlatMemory.read_write]
    rw [hcode, decode_eq_some_iff]
    decide
  have hafter : (pushing.step FlatMemory.bus m).memory.read 0x0100 = 0x2A := by
    have hmemory : (pushing.step FlatMemory.bus m).memory = m.write (stackAddress 0) 0x2A :=
      memory_of_tail hd
    rw [hmemory, FlatMemory.read_write]
    exact if_pos rfl
  have hbefore : m.read 0x0100 = 0 := by
    simp [m, FlatMemory.read_write, FlatMemory.read_zeroed]
  obtain ⟨hregisters, -, -, -⟩ := changes_assigned returning returns ()
  obtain ⟨-, -, -, hcells⟩ := changes_assigned pushing FlatMemory.bus m
  refine ⟨⟨rfl, hsp, hregisters .sp hsp⟩, hafter, hbefore, hcells m 0x0100 ?_⟩
  rw [hafter, hbefore]
  decide

end Cpu

end Cpu6502
