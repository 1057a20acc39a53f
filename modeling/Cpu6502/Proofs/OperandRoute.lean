import Cpu6502.Proofs.Assignment

/-!
What becomes of an operand. Where its byte came from does not matter: `Action.leaves` says what the registers
are afterwards and which byte goes back, from the byte and the registers alone. A step that succeeds leaves
just that, with the byte that goes back at the effective address (`Cpu.registers_of_completes`,
`Cpu.writes_of_completes`). So steps of one mnemonic with one operand leave the same in all modes
(`Cpu.operand_route`).
-/

namespace Cpu6502

variable {β γ : Type}

def Registers.AgreeOffPc (r s : Registers) : Prop := { r with pc := s.pc } = s

def AddressingMode.operandByte (read : UInt16 → UInt8) (r : Registers) (mode : AddressingMode) : UInt8 :=
  if mode = .accumulator then r.a else read (mode.address read r)

namespace Action

def takesOperand : Action → Bool
  | .consume _ | .modify _ => true
  | _ => false

def hasOperand : Action → Bool
  | .consume _ | .modify _ | .store _ => true
  | _ => false

/-- What is left of the operand `v`: the registers, and the byte that goes to the effective address. -/
def leaves (mode : AddressingMode) (v : UInt8) (r : Registers) : Action → Registers × Option UInt8
  | .consume effect => (effect r v, none)
  | .store source => (r, some (source r))
  | .modify change =>
      let new := change.byte r.status v
      let s := { r with status := (change.flags r.status v).withResult new }
      if mode = .accumulator then ({ s with a := new }, none) else (s, some new)
  | _ => (r, none)

variable {act : Action} {mode mode' : AddressingMode}

theorem ne_accumulator_of_fits (h : act.fits mode = true) {effect : Registers → UInt8 → Registers}
    (ha : act = .consume effect) : mode ≠ .accumulator := by
  rintro rfl
  subst ha
  cases h

theorem finish_leaves (h : act.hasOperand = true) (hfits : act.fits mode = true) (bus : Bus β) (b : β)
    (r : Registers) :
    act.finish bus b mode (mode.address (bus.read b) r) (r.past mode.operandBytes) =
      (act.leaves mode (mode.operandByte (bus.read b) r) (r.past mode.operandBytes)).1 := by
  cases act with
  | consume effect =>
    rw [AddressingMode.operandByte, if_neg (ne_accumulator_of_fits hfits rfl)]
    rfl
  | store source => rfl
  | modify change =>
    by_cases hacc : mode = .accumulator
    · subst hacc
      rfl
    · simp only [finish, leaves, AddressingMode.operandByte, if_neg hacc]
  | _ => cases h

theorem tail_leaves (h : act.hasOperand = true) (bus : Bus β) (b : β) (r : Registers) :
    let e := mode.address (bus.read b) r
    let s := r.past mode.operandBytes
    ((act.tail bus b mode e s).map (·.access)).filter (·.isWrite) =
      ((act.leaves mode (mode.operandByte (bus.read b) r) s).2.map (.write e)).toList := by
  intro e s
  cases act with
  | consume effect =>
    simp only [tail]
    split <;> rfl
  | store source => rfl
  | modify change =>
    by_cases hacc : mode = .accumulator
    · simp [tail, leaves, hacc]
    · simp [tail, leaves, AddressingMode.operandByte, hacc, Access.isWrite, e]
  | _ => cases h

theorem leaves_congr (h : mode = .accumulator ↔ mode' = .accumulator) (v : UInt8) (r : Registers) :
    act.leaves mode v r = act.leaves mode' v r := by
  cases act with
  | modify change => simp only [leaves, h]
  | _ => rfl

theorem leaves_of_not_takes (h : act.takesOperand = false) (v w : UInt8) (r : Registers) :
    act.leaves mode v r = act.leaves mode w r := by
  cases act with
  | consume effect | modify change => cases h
  | _ => rfl

end Action

namespace Mnemonic

def withOperand : List Mnemonic :=
  [.lda, .ldx, .ldy, .adc, .sbc, .and, .ora, .eor, .cmp, .cpx, .cpy, .bit, .sta, .stx, .sty, .inc, .dec,
    .asl, .lsr, .rol, .ror]

theorem hasOperand_of_mem {m : Mnemonic} (h : m ∈ withOperand) : m.action.hasOperand = true := by
  revert h
  cases m <;> decide

theorem leaves_pc (m : Mnemonic) (mode : AddressingMode) (v : UInt8) (r : Registers) (w : UInt16) :
    m.action.leaves mode v { r with pc := w } =
      ({ (m.action.leaves mode v r).1 with pc := w }, (m.action.leaves mode v r).2) := by
  cases m with
  | inc | dec | asl | lsr | rol | ror =>
    simp only [action, Action.leaves]
    split <;> rfl
  | _ => rfl

end Mnemonic

theorem Instruction.leaves_isSome {code : UInt8} {i : Instruction} (hd : decode code = some i)
    (h : i.mnemonic.action.hasOperand = true) (v : UInt8) (r : Registers) :
    (i.mnemonic.action.leaves i.mode v r).2.isSome = i.writes := by
  obtain ⟨m, mode⟩ := i
  have hmode := mode_mem_of_decode hd
  cases m with
  | inc | dec =>
    have hacc : mode ≠ .accumulator := by
      rintro rfl
      revert hmode
      decide
    simp [Mnemonic.action, Action.leaves, writes, hacc]
  | asl | lsr | rol | ror =>
    by_cases hacc : mode = .accumulator
    · simp [Mnemonic.action, Action.leaves, writes, hacc]
    · simp [Mnemonic.action, Action.leaves, writes, hacc]
  | _ => first | rfl | cases h

namespace Cpu

variable {c d : Cpu} {bus : Bus β} {other : Bus γ} {b : β} {e : γ} {i : Instruction}

def Completes (c : Cpu) (bus : Bus β) (b : β) (i : Instruction) : Prop :=
  decode (bus.read b c.registers.pc) = some i ∧ ∃ s, (c.step bus b).result = .ok s

def effective (c : Cpu) (bus : Bus β) (b : β) (mode : AddressingMode) : UInt16 :=
  mode.address (bus.read b) (c.registers.past 1)

def operand (c : Cpu) (bus : Bus β) (b : β) (mode : AddressingMode) : UInt8 :=
  mode.operandByte (bus.read b) (c.registers.past 1)

theorem registers_of_completes (h : c.Completes bus b i) :
    (c.step bus b).registers = i.mnemonic.action.finish bus b i.mode (c.effective bus b i.mode)
      ((c.registers.past 1).past i.mode.operandBytes) := by
  obtain ⟨hd, s, hs⟩ := h
  rw [step_eq_unrestricted hs, (step_documented hd).2]
  rfl

theorem writes_of_completes (h : c.Completes bus b i) :
    (c.step bus b).accesses.filter (·.isWrite) =
      ((c.tail bus b i).map (·.access)).filter (·.isWrite) := by
  obtain ⟨hd, s, hs⟩ := h
  have hquiet : ((c.prelude bus b i.mode).map (·.access)).filter (·.isWrite) = [] := by
    rw [List.filter_eq_nil_iff]
    intro a ha
    obtain ⟨x, hx, rfl⟩ := List.mem_map.mp ha
    simp [(c.prelude_quiet bus b i.mode x hx).2.1]
  rw [accesses_of_step hs, schedule_documented hd, List.map_append, List.filter_append, hquiet,
    List.nil_append]

theorem leaves_of_completes (h : c.Completes bus b i) (hi : i.mnemonic.action.hasOperand = true) :
    let left := i.mnemonic.action.leaves i.mode (c.operand bus b i.mode) c.registers
    let o := c.step bus b
    o.registers = { left.1 with pc := c.registers.pc + UInt16.ofNat i.size } ∧
      o.accesses.filter (·.isWrite) = (left.2.map (.write (c.effective bus b i.mode))).toList := by
  intro left o
  have hpast : (c.registers.past 1).past i.mode.operandBytes =
      { c.registers with pc := c.registers.pc + UInt16.ofNat i.size } := c.registers.past_past 1 _
  have hleft : i.mnemonic.action.leaves i.mode (c.operand bus b i.mode)
      ((c.registers.past 1).past i.mode.operandBytes) =
        ({ left.1 with pc := c.registers.pc + UInt16.ofNat i.size }, left.2) := by
    rw [hpast, Mnemonic.leaves_pc]
  constructor
  · have hfinish := Action.finish_leaves hi (decode_fits h.1) bus b (c.registers.past 1)
    exact (registers_of_completes h).trans (hfinish.trans (congrArg Prod.fst hleft))
  · have htail := @Action.tail_leaves β _ i.mode hi bus b (c.registers.past 1)
    have hwrites := congrArg (fun s => (s.2.map (Access.write (c.effective bus b i.mode))).toList) hleft
    exact (writes_of_completes h).trans (htail.trans hwrites)

theorem exists_modify {act : Action} (h : act.hasOperand = true)
    (hfits : act.fits .accumulator = true) : ∃ change, act = .modify change := by
  cases act with
  | modify change => exact ⟨change, rfl⟩
  | consume effect | store source => cases hfits
  | _ => cases h

/-- Two steps of one mnemonic that take the same operand leave the same registers but for the program
counter, and write the same byte if they write one, each at its own effective address. A shift of the
accumulator leaves there what a shift in memory writes, with the same status. -/
theorem operand_route {m : Mnemonic} (hm : m ∈ Mnemonic.withOperand) {mode mode' : AddressingMode}
    (hc : c.Completes bus b ⟨m, mode⟩) (hd : d.Completes other e ⟨m, mode'⟩)
    (hv : m.action.takesOperand = true → c.operand bus b mode = d.operand other e mode') :
    let o := c.step bus b
    let p := d.step other e
    ((mode = .accumulator ↔ mode' = .accumulator) → c.registers.AgreeOffPc d.registers →
        o.registers.AgreeOffPc p.registers ∧
          ∃ w : Option UInt8, w.isSome = Instruction.writes ⟨m, mode⟩ ∧
            o.accesses.filter (·.isWrite) = (w.map (.write (c.effective bus b mode))).toList ∧
            p.accesses.filter (·.isWrite) = (w.map (.write (d.effective other e mode'))).toList) ∧
      (mode = .accumulator → mode' ≠ .accumulator → c.registers.status = d.registers.status →
        o.registers.status = p.registers.status ∧
          p.accesses.filter (·.isWrite) = [.write (d.effective other e mode') o.registers.a]) := by
  intro o p
  have hoperand := Mnemonic.hasOperand_of_mem hm
  obtain ⟨hregisters, hwrites⟩ := leaves_of_completes hc hoperand
  obtain ⟨hregisters', hwrites'⟩ := leaves_of_completes hd hoperand
  constructor
  · intro hmodes hagree
    let left := m.action.leaves mode (c.operand bus b mode) c.registers
    have hleft : m.action.leaves mode' (d.operand other e mode') d.registers =
        ({ left.1 with pc := d.registers.pc }, left.2) := by
      rw [← hagree, Mnemonic.leaves_pc, ← Action.leaves_congr hmodes]
      cases htakes : m.action.takesOperand with
      | true => rw [← hv htakes]
      | false => rw [Action.leaves_of_not_takes htakes _ (c.operand bus b mode)]
    simp only [hleft] at hregisters' hwrites'
    refine ⟨?_, left.2, Instruction.leaves_isSome hc.1 hoperand _ _, hwrites, hwrites'⟩
    simp only [o, p, hregisters, hregisters', Registers.AgreeOffPc]
    rfl
  · intro hacc hmem hstatus
    subst hacc
    obtain ⟨change, hact⟩ := exists_modify hoperand (decode_fits hc.1)
    have hv := hv (by rw [hact]; rfl)
    simp only [hact, Action.leaves, if_neg hmem] at hregisters' hwrites'
    simp only [hact, Action.leaves, if_true] at hregisters
    simp only [o, p]
    rw [hregisters, hregisters', hwrites', hv, hstatus]
    exact ⟨rfl, rfl⟩

def entwined : Bus Unit where
  -- `ADC ($00,X)` at `$0000` with itself as pointer, `ROL A` at `$0061`, `ROL $0062` right behind it,
  -- and `ADC #$2A` at `$0070`
  read _ addr :=
    match addr with
    | 0x0000 => 0x61
    | 0x0001 => 0x00
    | 0x0061 => 0x2A
    | 0x0062 => 0x2E
    | 0x0063 => 0x62
    | 0x0070 => 0x69
    | 0x0071 => 0x2A
    | _ => 0
  write _ _ _ := ()

theorem operand_route_entwined :
    let placed (pc : UInt16) (a : UInt8) : Cpu := ⟨{ Registers.powerOn with a := a, pc := pc }, .error⟩
    let immediate := (placed 0x0070 0x60).step entwined ()
    let indirect := (placed 0x0000 0x60).step entwined ()
    let rotated := (placed 0x0061 0x2E).step entwined ()
    let written := (placed 0x0062 0x00).step entwined ()
    immediate.registers.AgreeOffPc indirect.registers ∧ indirect.registers.a = 0x8A ∧
      rotated.registers.status = written.registers.status ∧ rotated.registers.a = 0x5C ∧
        written.accesses.filter (·.isWrite) = [.write 0x0062 rotated.registers.a] := by
  intro placed immediate indirect rotated written
  have himmediate : (placed 0x0070 0x60).Completes entwined () ⟨.adc, .immediate⟩ :=
    ⟨by decide +kernel, .proceed, rfl⟩
  have hindirect : (placed 0x0000 0x60).Completes entwined () ⟨.adc, .indirectX⟩ :=
    ⟨by decide +kernel, .proceed, rfl⟩
  have hrotated : (placed 0x0061 0x2E).Completes entwined () ⟨.rol, .accumulator⟩ :=
    ⟨by decide +kernel, .proceed, rfl⟩
  have hwritten : (placed 0x0062 0x00).Completes entwined () ⟨.rol, .absolute⟩ :=
    ⟨by decide +kernel, .proceed, rfl⟩
  obtain ⟨hsame, -⟩ := operand_route (by decide) himmediate hindirect fun _ => by decide +kernel
  obtain ⟨-, hforms⟩ := operand_route (by decide) hrotated hwritten fun _ => by decide +kernel
  obtain ⟨hagree, -⟩ := hsame (by decide) rfl
  obtain ⟨hstatus, hwrites⟩ := hforms rfl (by decide) rfl
  have heffective : (placed 0x0062 0x00).effective entwined () .absolute = 0x0062 := by decide +kernel
  rw [heffective] at hwrites
  exact ⟨hagree, by decide +kernel, hstatus, by decide +kernel, hwrites⟩

end Cpu

end Cpu6502
