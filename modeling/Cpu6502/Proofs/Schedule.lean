import Cpu6502.Proofs.Course

/-!
The schedule of an instruction: every access it makes on a bus that refuses nothing, in order, with
what the access is for and the registers that stand if it is refused. The accesses that find the
operand depend on the mode (`AddressingMode.schedule`), those that follow on the action
(`Action.tail`). `Cpu.course_step` says that this is the course of a step, and `Cpu.schedule_paced` that
the program counter and the stack pointer keep pace with it.
-/

namespace Cpu6502

variable {β : Type}

inductive Phase where
  | fetch
  | pointer
  | load
  | store
  | push
  | pull
deriving DecidableEq

namespace Phase

/-- What an access has moved already when it is refused: a pull raises the stack pointer first. -/
def attempt : Phase → Registers → Registers
  | .pull, r => { r with sp := r.sp + 1 }
  | _, r => r

def complete : Phase → Registers → Registers
  | .fetch, r => { r with pc := r.pc + 1 }
  | .push, r => { r with sp := r.sp - 1 }
  | .pull, r => { r with sp := r.sp + 1 }
  | _, r => r

end Phase

def AddressingMode.phases (mode : AddressingMode) : List Phase :=
  List.replicate mode.operandBytes .fetch ++
    match mode with
    | .indirect | .indirectX | .indirectY => [.pointer, .pointer]
    | _ => []

def Action.phases (mode : AddressingMode) : Action → List Phase
  | .consume _ => if mode = .immediate then [] else [.load]
  | .store _ => [.store]
  | .modify _ => if mode = .accumulator then [] else [.load, .store]
  | .push _ => [.push]
  | .pull _ => [.pull]
  | .call => [.push, .push]
  | .returnFromCall => [.pull, .pull]
  | .returnFromInterrupt => [.pull, .pull, .pull]
  | .internal _ | .branch _ _ | .jump | .halt => []

def Instruction.phases (i : Instruction) : List Phase :=
  i.mode.phases ++ i.mnemonic.action.phases i.mode

def Opcode.phases (o : Opcode) : List Phase :=
  .fetch :: (o.instruction.map Instruction.phases).getD []

structure Moment where
  phase : Phase
  registers : Registers
  access : Access

def Moment.due (m : Moment) : Registers × Access := (m.registers, m.access)

def Registers.past : Registers → Nat → Registers
  | r, 0 => r
  | r, n + 1 => past { r with pc := r.pc + 1 } n

namespace AddressingMode

def hasAddress : AddressingMode → Bool
  | .implicit | .accumulator => false
  | _ => true

def pointee (read : UInt16 → UInt8) (p : UInt16) : UInt16 := wordOf (read p) (read (nextInPage p))

def pointer? (read : UInt16 → UInt8) (r : Registers) : AddressingMode → Option UInt16
  | .indirect => some (wordOf (read r.pc) (read (r.pc + 1)))
  | .indirectX => some (read r.pc + r.x).toUInt16
  | .indirectY => some (read r.pc).toUInt16
  | _ => none

def address (read : UInt16 → UInt8) (r : Registers) : AddressingMode → UInt16
  | .implicit | .accumulator | .immediate => r.pc
  | .zeroPage => (read r.pc).toUInt16
  | .zeroPageX => (read r.pc + r.x).toUInt16
  | .zeroPageY => (read r.pc + r.y).toUInt16
  | .relative => branchTarget (r.pc + 1) (read r.pc)
  | .absolute => wordOf (read r.pc) (read (r.pc + 1))
  | .absoluteX => wordOf (read r.pc) (read (r.pc + 1)) + r.x.toUInt16
  | .absoluteY => wordOf (read r.pc) (read (r.pc + 1)) + r.y.toUInt16
  | .indirect => pointee read (wordOf (read r.pc) (read (r.pc + 1)))
  | .indirectX => pointee read (read r.pc + r.x).toUInt16
  | .indirectY => pointee read (read r.pc).toUInt16 + r.y.toUInt16

end AddressingMode

section Lists

variable (bus : Bus β) (b : β)

def fetches : Registers → Nat → List Moment
  | _, 0 => []
  | r, n + 1 =>
      ⟨.fetch, r, .read r.pc (bus.read b r.pc)⟩ :: fetches { r with pc := r.pc + 1 } n

def pulls : Registers → Nat → List Moment
  | _, 0 => []
  | r, n + 1 =>
      let s := { r with sp := r.sp + 1 }
      let addr := stackAddress s.sp
      ⟨.pull, s, .read addr (bus.read b addr)⟩ :: pulls s n

def pushes : Registers → List UInt8 → List Moment
  | _, [] => []
  | r, v :: vs =>
      ⟨.push, r, .write (stackAddress r.sp) v⟩ :: pushes { r with sp := r.sp - 1 } vs

def AddressingMode.schedule (r : Registers) (mode : AddressingMode) : List Moment :=
  fetches bus b r mode.operandBytes ++
    match mode.pointer? (bus.read b) r with
    | some p =>
        let s := r.past mode.operandBytes
        let q := nextInPage p
        [⟨.pointer, s, .read p (bus.read b p)⟩, ⟨.pointer, s, .read q (bus.read b q)⟩]
    | none => []

def Action.tail (mode : AddressingMode) (e : UInt16) (s : Registers) : Action → List Moment
  | .consume _ => if mode = .immediate then [] else [⟨.load, s, .read e (bus.read b e)⟩]
  | .store source => [⟨.store, s, .write e (source s)⟩]
  | .modify change =>
      let old := bus.read b e
      let t := { s with status := change.flags s.status old }
      if mode = .accumulator then []
      else [⟨.load, s, .read e old⟩, ⟨.store, t, .write e (change.byte s.status old)⟩]
  | .push source => pushes s [source s]
  | .pull _ => pulls bus b s 1
  | .call => pushes s [highByte (s.pc - 1), lowByte (s.pc - 1)]
  | .returnFromCall => pulls bus b s 2
  | .returnFromInterrupt =>
      let t := { s with sp := s.sp + 1 }
      let addr := stackAddress t.sp
      let v := bus.read b addr
      ⟨.pull, t, .read addr v⟩ :: pulls bus b { t with status := .ofStack v } 2
  | .internal _ | .branch _ _ | .jump | .halt => []

def Action.schedule (mode : AddressingMode) (r : Registers) (act : Action) : List Moment :=
  mode.schedule bus b r ++
    act.tail bus b mode (mode.address (bus.read b) r) (r.past mode.operandBytes)

end Lists

def Action.fits (mode : AddressingMode) : Action → Bool
  | .consume _ | .store _ | .branch _ _ | .jump => mode.hasAddress
  | .call => mode == .absolute
  | .modify _ => mode == .accumulator || mode.hasAddress
  | _ => mode == .implicit

theorem decode_fits {c : UInt8} {i : Instruction} (h : decode c = some i) :
    i.mnemonic.action.fits i.mode := by
  apply Instruction.of_decode h
  intro m
  cases m <;> decide

namespace Micro

variable {bus : Bus β} {b : β}

theorem course_effectiveAddress (mode : AddressingMode) (r : Registers) :
    (effectiveAddress mode r).course bus b = (mode.schedule bus b r).map Moment.due := by
  cases mode <;> rfl

theorem exec_effectiveAddress {mode : AddressingMode} (h : mode.hasAddress) (r : Registers) :
    (effectiveAddress mode r).exec bus.unrestricted b =
      ⟨.ok (mode.address (bus.read b) r), r.past mode.operandBytes, b,
        (mode.schedule bus b r).map (·.access), []⟩ := by
  cases mode <;> first | rfl | cases h

theorem course_address_bind {mode : AddressingMode} (h : mode.hasAddress) (r : Registers)
    {γ : Type} (f : UInt16 → Micro γ) :
    ((effectiveAddress mode >>= f) r).course bus b =
      (mode.schedule bus b r).map Moment.due ++
        (f (mode.address (bus.read b) r) (r.past mode.operandBytes)).course bus b := by
  have hc := Microcode.course_bind bus (effectiveAddress mode r) f b
  rw [exec_effectiveAddress h, course_effectiveAddress] at hc
  exact hc

theorem exec_address_bind {mode : AddressingMode} (h : mode.hasAddress) (r : Registers)
    {γ : Type} (f : UInt16 → Micro γ) :
    let o := ((effectiveAddress mode >>= f) r).exec bus.unrestricted b
    let p := (f (mode.address (bus.read b) r) (r.past mode.operandBytes)).exec bus.unrestricted b
    o.result = p.result ∧ o.registers = p.registers := by
  have ho := Microcode.exec_bind bus.unrestricted (effectiveAddress mode r) f b
  rw [exec_effectiveAddress h] at ho
  have hresult := congrArg Outcome.result ho
  have hregisters := congrArg Outcome.registers ho
  exact ⟨hresult, hregisters⟩

end Micro

namespace Action

def answer : Action → Step
  | .halt => .halt
  | _ => .proceed

/-- The registers in the end, for the effective address `e` and the registers `s` that stand when
it is known. -/
def finish (bus : Bus β) (b : β) (mode : AddressingMode) (e : UInt16) (s : Registers) :
    Action → Registers
  | .consume effect => effect s (bus.read b e)
  | .store _ | .halt => s
  | .modify change =>
      let old := if mode = .accumulator then s.a else bus.read b e
      let new := change.byte s.status old
      let t := { s with status := (change.flags s.status old).withResult new }
      if mode = .accumulator then { t with a := new } else t
  | .internal effect => effect s
  | .push _ => { s with sp := s.sp - 1 }
  | .pull effect =>
      effect { s with sp := s.sp + 1 } (bus.read b (stackAddress (s.sp + 1)))
  | .branch flag wanted => if s.status.has flag = wanted then { s with pc := e } else s
  | .jump => { s with pc := e }
  | .call => { s with sp := s.sp - 1 - 1, pc := e }
  | .returnFromCall =>
      let lo := bus.read b (stackAddress (s.sp + 1))
      let hi := bus.read b (stackAddress (s.sp + 1 + 1))
      { s with sp := s.sp + 1 + 1, pc := wordOf lo hi + 1 }
  | .returnFromInterrupt =>
      let v := bus.read b (stackAddress (s.sp + 1))
      let lo := bus.read b (stackAddress (s.sp + 1 + 1))
      let hi := bus.read b (stackAddress (s.sp + 1 + 1 + 1))
      { s with sp := s.sp + 1 + 1 + 1, status := .ofStack v, pc := wordOf lo hi }

variable (bus : Bus β) (b : β)

theorem course_perform {mode : AddressingMode} {act : Action} (h : act.fits mode)
    (r : Registers) :
    (act.perform mode r).course bus b = (act.schedule bus b mode r).map Moment.due := by
  cases act with
  | consume effect => cases mode <;> first | rfl | nomatch h
  | modify change => cases mode <;> first | rfl | nomatch h
  | store source =>
    rw [schedule, List.map_append]
    exact Micro.course_address_bind h r _
  | branch flag wanted =>
    rw [schedule, List.map_append]
    exact Micro.course_address_bind h r _
  | jump =>
    rw [schedule, List.map_append]
    exact Micro.course_address_bind h r _
  | call =>
    obtain rfl : mode = .absolute := by simpa [fits] using h
    rfl
  | internal effect | push source | pull effect | returnFromCall | returnFromInterrupt | halt =>
    obtain rfl : mode = .implicit := by simpa [fits] using h
    rfl

theorem exec_perform {mode : AddressingMode} {act : Action} (h : act.fits mode) (r : Registers) :
    let o := (act.perform mode r).exec bus.unrestricted b
    o.result = .ok act.answer ∧
      o.registers =
        act.finish bus b mode (mode.address (bus.read b) r) (r.past mode.operandBytes) := by
  cases act with
  | consume effect => cases mode <;> first | exact ⟨rfl, rfl⟩ | nomatch h
  | modify change => cases mode <;> first | exact ⟨rfl, rfl⟩ | nomatch h
  | store source => exact Micro.exec_address_bind h r _
  | branch flag wanted => exact Micro.exec_address_bind h r _
  | jump => exact Micro.exec_address_bind h r _
  | call =>
    obtain rfl : mode = .absolute := by simpa [fits] using h
    exact ⟨rfl, rfl⟩
  | internal effect | push source | pull effect | returnFromCall | returnFromInterrupt | halt =>
    obtain rfl : mode = .implicit := by simpa [fits] using h
    exact ⟨rfl, rfl⟩

end Action

def Micro.execution (policy : UnknownOpcodes) (r : Registers) (code : UInt8) : Microcode Step :=
  match decode code with
  | some i => i.mnemonic.action.perform i.mode (r.past 1)
  | none =>
      match policy with
      | .skip => .note (.skipped code r.pc) (.done (r.past 1) .proceed)
      | .error => .fail (r.past 1) (.unimplementedOpcode code)

theorem Micro.instruction_eq (policy : UnknownOpcodes) (r : Registers) :
    Micro.instruction policy r =
      .read r r.pc fun code => .note (.fetched (.ofCode code) r) (execution policy r code) := by
  refine congrArg (Microcode.read r r.pc) (funext fun code => ?_)
  refine congrArg (Microcode.note _) ?_
  unfold execution
  change (match decode code with
    | some i => i.perform
    | none => _ : Micro Step) _ = _
  cases decode code with
  | some i => rfl
  | none => cases policy <;> rfl

namespace Cpu

def schedule (c : Cpu) (bus : Bus β) (b : β) : List Moment :=
  let r := c.registers
  let code := bus.read b r.pc
  ⟨.fetch, r, .read r.pc code⟩ ::
    match decode code with
    | some i => i.mnemonic.action.schedule bus b i.mode (r.past 1)
    | none => []

theorem course_step (c : Cpu) (bus : Bus β) (b : β) :
    (Micro.instruction c.policy c.registers).course bus b =
      (c.schedule bus b).map Moment.due := by
  rw [Micro.instruction_eq, schedule, List.map_cons]
  refine congrArg (_ :: ·) ?_
  change (Micro.execution _ _ _).course bus b = _
  unfold Micro.execution
  cases hd : decode (bus.read b c.registers.pc) with
  | some i => exact Action.course_perform bus b (decode_fits hd) _
  | none => cases c.policy <;> rfl

theorem step_accesses (c : Cpu) (bus : Bus β) (b : β) :
    (c.step bus.unrestricted b).accesses = (c.schedule bus b).map (·.access) := by
  rw [step, Microcode.exec_unrestricted_accesses, course_step, List.map_map]
  rfl

theorem step_execution (c : Cpu) (bus : Bus β) (b : β) :
    let o := c.step bus.unrestricted b
    let t := Micro.execution c.policy c.registers (bus.read b c.registers.pc)
    o.result = (t.exec bus.unrestricted b).result ∧
      o.registers = (t.exec bus.unrestricted b).registers := by
  rw [step, Micro.instruction_eq]
  exact ⟨rfl, rfl⟩

theorem step_documented {c : Cpu} {bus : Bus β} {b : β} {i : Instruction}
    (hd : decode (bus.read b c.registers.pc) = some i) :
    let o := c.step bus.unrestricted b
    let r := c.registers.past 1
    let act := i.mnemonic.action
    o.result = .ok act.answer ∧
      o.registers =
        act.finish bus b i.mode (i.mode.address (bus.read b) r) (r.past i.mode.operandBytes) := by
  have hs := c.step_execution bus b
  simp only [Micro.execution, hd] at hs
  have hp := Action.exec_perform bus b (decode_fits hd) (c.registers.past 1)
  exact ⟨hs.1.trans hp.1, hs.2.trans hp.2⟩

theorem step_undocumented {c : Cpu} {bus : Bus β} {b : β}
    (hd : decode (bus.read b c.registers.pc) = none) :
    let o := c.step bus.unrestricted b
    o.registers = c.registers.past 1 ∧
      o.result = match c.policy with
        | .skip => .ok .proceed
        | .error => .error (.unimplementedOpcode (bus.read b c.registers.pc)) := by
  have hs := c.step_execution bus b
  simp only [Micro.execution, hd] at hs
  cases hp : c.policy with
  | skip =>
    rw [hp] at hs
    exact ⟨hs.2, hs.1⟩
  | error =>
    rw [hp] at hs
    exact ⟨hs.2, hs.1⟩

end Cpu

namespace Registers

def advance (r : Registers) (ps : List Phase) : Registers := ps.foldl (fun r p => p.complete r) r

theorem advance_append (r : Registers) (ps qs : List Phase) :
    r.advance (ps ++ qs) = (r.advance ps).advance qs := List.foldl_append

theorem advance_fetches (r : Registers) (n : Nat) :
    r.advance (List.replicate n .fetch) = r.past n := by
  induction n generalizing r with
  | zero => rfl
  | succ n ih => exact ih _

theorem advance_eq (r : Registers) (ps : List Phase) :
    r.advance ps = { r with
      pc := r.pc + UInt16.ofNat (ps.count .fetch)
      sp := r.sp + UInt8.ofNat (ps.count .pull) - UInt8.ofNat (ps.count .push) } := by
  induction ps generalizing r with
  | nil => simp [advance]
  | cons p ps ih =>
    have h : r.advance (p :: ps) = (p.complete r).advance ps := rfl
    rw [h, ih]
    cases p <;> simp [Phase.complete, UInt16.ofNat_add, UInt8.ofNat_add] <;> grind

theorem past_eq (r : Registers) (n : Nat) : r.past n = { r with pc := r.pc + UInt16.ofNat n } := by
  rw [← advance_fetches, advance_eq]
  simp [List.count_replicate]

theorem past_past (r : Registers) (j k : Nat) :
    (r.past j).past k = { r with pc := r.pc + UInt16.ofNat (j + k) } := by
  simp only [past_eq, UInt16.ofNat_add, UInt16.add_assoc]

end Registers

namespace Moment

def Placed (r : Registers) (m : Moment) : Prop :=
  match m.phase, m.access with
  | .fetch, .read addr _ => addr = r.pc
  | .push, .write addr _ => addr = stackAddress r.sp
  | .pull, .read addr _ => addr = stackAddress (r.sp + 1)
  | .pointer, .read _ _ | .load, .read _ _ | .store, .write _ _ => True
  | _, _ => False

/-- From `r` on, the program counter and the stack pointer move with the accesses, and no other
register but the status moves. -/
def Paced : Registers → List Moment → Prop
  | _, [] => True
  | r, m :: ms =>
      (∃ p, m.registers = { m.phase.attempt r with status := p }) ∧ m.Placed r ∧
        Paced (m.phase.complete r) ms

theorem paced_append {r : Registers} {ms ns : List Moment} :
    Paced r (ms ++ ns) ↔ Paced r ms ∧ Paced (r.advance (ms.map (·.phase))) ns := by
  induction ms generalizing r with
  | nil => simp [Paced, Registers.advance]
  | cons m ms ih => simp [Paced, Registers.advance, ih, and_assoc]

theorem paced_fetches (bus : Bus β) (b : β) (r : Registers) (n : Nat) :
    Paced r (fetches bus b r n) := by
  induction n generalizing r with
  | zero => trivial
  | succ n ih => exact ⟨⟨r.status, rfl⟩, rfl, ih _⟩

theorem paced_pulls (bus : Bus β) (b : β) (r : Registers) (p : Status) (n : Nat) :
    Paced r (pulls bus b { r with status := p } n) := by
  induction n generalizing r with
  | zero => trivial
  | succ n ih => exact ⟨⟨p, rfl⟩, rfl, ih { r with sp := r.sp + 1 }⟩

theorem paced_pushes (r : Registers) (vs : List UInt8) : Paced r (pushes r vs) := by
  induction vs generalizing r with
  | nil => trivial
  | cons v vs ih => exact ⟨⟨r.status, rfl⟩, rfl, ih _⟩

theorem fetches_phases (bus : Bus β) (b : β) (r : Registers) (n : Nat) :
    (fetches bus b r n).map (·.phase) = List.replicate n .fetch := by
  induction n generalizing r with
  | zero => rfl
  | succ n ih => exact congrArg (_ :: ·) (ih _)

theorem schedule_phases (bus : Bus β) (b : β) (r : Registers) (mode : AddressingMode) :
    (mode.schedule bus b r).map (·.phase) = mode.phases := by
  cases mode <;> rfl

theorem tail_phases (bus : Bus β) (b : β) (mode : AddressingMode) (e : UInt16) (s : Registers)
    (act : Action) : (act.tail bus b mode e s).map (·.phase) = act.phases mode := by
  cases act with
  | consume effect => cases mode <;> rfl
  | modify change => cases mode <;> rfl
  | _ => rfl

theorem advance_phases (r : Registers) (mode : AddressingMode) :
    r.advance mode.phases = r.past mode.operandBytes := by
  cases mode <;> rfl

theorem paced_schedule (bus : Bus β) (b : β) (r : Registers) (mode : AddressingMode) :
    Paced r (mode.schedule bus b r) := by
  rw [AddressingMode.schedule, paced_append, fetches_phases, Registers.advance_fetches]
  refine ⟨paced_fetches bus b r _, ?_⟩
  cases mode.pointer? (bus.read b) r with
  | none => trivial
  | some p => exact ⟨⟨_, rfl⟩, trivial, ⟨_, rfl⟩, trivial, trivial⟩

theorem paced_tail (bus : Bus β) (b : β) (mode : AddressingMode) (e : UInt16) (s : Registers)
    (act : Action) : Paced s (act.tail bus b mode e s) := by
  cases act with
  | consume effect => cases mode <;> first | trivial | exact ⟨⟨_, rfl⟩, trivial, trivial⟩
  | modify change =>
    cases mode <;> first | trivial | exact ⟨⟨_, rfl⟩, trivial, ⟨_, rfl⟩, trivial, trivial⟩
  | store source => exact ⟨⟨_, rfl⟩, trivial, trivial⟩
  | push source => exact paced_pushes s _
  | call => exact paced_pushes s _
  | pull effect => exact paced_pulls bus b s s.status 1
  | returnFromCall => exact paced_pulls bus b s s.status 2
  | returnFromInterrupt =>
    exact ⟨⟨s.status, rfl⟩, rfl, paced_pulls bus b { s with sp := s.sp + 1 } _ 2⟩
  | internal effect | branch flag wanted | jump | halt => trivial

theorem Paced.of_split {r : Registers} {past rest : List Moment} {m : Moment}
    (h : Paced r (past ++ m :: rest)) :
    (∃ p, m.registers = { m.phase.attempt (r.advance (past.map (·.phase))) with status := p }) ∧
      m.Placed (r.advance (past.map (·.phase))) := by
  have hm := (paced_append.mp h).2
  exact ⟨hm.1, hm.2.1⟩

end Moment

namespace Cpu

theorem schedule_phases (c : Cpu) (bus : Bus β) (b : β) :
    (c.schedule bus b).map (·.phase) = (Opcode.ofCode (bus.read b c.registers.pc)).phases := by
  rw [schedule, List.map_cons, Opcode.phases, Opcode.ofCode]
  cases hd : decode (bus.read b c.registers.pc) with
  | none => rfl
  | some i =>
    simp [Action.schedule, Instruction.phases, Moment.schedule_phases, Moment.tail_phases]

theorem schedule_paced (c : Cpu) (bus : Bus β) (b : β) :
    Moment.Paced c.registers (c.schedule bus b) := by
  refine ⟨⟨c.registers.status, rfl⟩, rfl, ?_⟩
  cases decode (bus.read b c.registers.pc) with
  | none => trivial
  | some i =>
    refine Moment.paced_append.mpr ⟨Moment.paced_schedule bus b _ _, ?_⟩
    rw [Moment.schedule_phases, Moment.advance_phases]
    exact Moment.paced_tail bus b i.mode _ _ _

end Cpu

theorem AddressingMode.schedule_quiet (bus : Bus β) (b : β) (r : Registers)
    (mode : AddressingMode) :
    ∀ m ∈ mode.schedule bus b r, m.registers.status = r.status ∧ m.access.isWrite = false ∧
      (m.phase = .fetch ∨ m.phase = .pointer) := by
  cases mode <;> simp [schedule, fetches, pointer?, operandBytes, Registers.past, Access.isWrite]

theorem Action.tail_store {bus : Bus β} {b : β} {mode : AddressingMode} {e : UInt16}
    {s : Registers} {act : Action} {x : Moment} (hx : x ∈ act.tail bus b mode e s)
    (hp : x.phase = .store) : x.access.addr = e := by
  have hstore : Phase.store ∈ act.phases mode := by
    rw [← Moment.tail_phases bus b mode e s act, ← hp]
    exact List.mem_map_of_mem hx
  cases act with
  | store source =>
    cases List.mem_singleton.mp hx
    rfl
  | modify change =>
    simp only [tail] at hx
    split at hx
    · cases hx
    · simp only [List.mem_cons, List.not_mem_nil, or_false] at hx
      rcases hx with rfl | rfl <;> rfl
  | consume effect =>
    simp only [phases] at hstore
    split at hstore <;> simp at hstore
  | _ => simp [phases] at hstore

namespace Cpu

def prelude (c : Cpu) (bus : Bus β) (b : β) (mode : AddressingMode) : List Moment :=
  ⟨.fetch, c.registers, .read c.registers.pc (bus.read b c.registers.pc)⟩ ::
    mode.schedule bus b (c.registers.past 1)

theorem prelude_quiet (c : Cpu) (bus : Bus β) (b : β) (mode : AddressingMode) :
    ∀ m ∈ c.prelude bus b mode, m.registers.status = c.registers.status ∧
      m.access.isWrite = false ∧ (m.phase = .fetch ∨ m.phase = .pointer) := by
  intro m hm
  rcases List.mem_cons.mp hm with rfl | hm
  · exact ⟨rfl, rfl, .inl rfl⟩
  · exact mode.schedule_quiet bus b (c.registers.past 1) m hm

def tail (c : Cpu) (bus : Bus β) (b : β) (i : Instruction) : List Moment :=
  let r := c.registers.past 1
  i.mnemonic.action.tail bus b i.mode (i.mode.address (bus.read b) r) (r.past i.mode.operandBytes)

theorem schedule_documented {c : Cpu} {bus : Bus β} {b : β} {i : Instruction}
    (hd : decode (bus.read b c.registers.pc) = some i) :
    c.schedule bus b = c.prelude bus b i.mode ++ c.tail bus b i := by
  simp only [schedule, hd, prelude]
  rfl

theorem tail_phases (c : Cpu) (bus : Bus β) (b : β) (i : Instruction) :
    (c.tail bus b i).map (·.phase) = i.mnemonic.action.phases i.mode :=
  Moment.tail_phases bus b i.mode _ _ _

theorem tail_phase {c : Cpu} {bus : Bus β} {b : β} {i : Instruction} {k : Nat} {m : Moment}
    (h : (c.tail bus b i)[k]? = some m) :
    (i.mnemonic.action.phases i.mode)[k]? = some m.phase := by
  rw [← c.tail_phases bus b i, List.getElem?_map, h]
  rfl

theorem store_address {c : Cpu} {bus : Bus β} {b : β} {x : Moment} {i : Instruction}
    (hd : decode (bus.read b c.registers.pc) = some i) (hx : x ∈ c.schedule bus b)
    (hp : x.phase = .store) :
    .store ∈ i.phases ∧
      x.access.addr = i.mode.address (bus.read b) (c.registers.past 1) := by
  rw [schedule_documented hd, List.mem_append] at hx
  rcases hx with hx | hx
  · rcases (c.prelude_quiet bus b i.mode x hx).2.2 with hq | hq <;> rw [hq] at hp <;> cases hp
  · refine ⟨?_, Action.tail_store hx hp⟩
    rw [Instruction.phases, List.mem_append, ← c.tail_phases bus b i, ← hp]
    exact .inr (List.mem_map_of_mem hx)

end Cpu

end Cpu6502
