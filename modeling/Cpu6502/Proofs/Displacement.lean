import Mathlib.Data.List.Forall2
import Cpu6502.Proofs.StraightLine

/-!
Position independence. Code that addresses nothing but its own bytes, and branches from where it is, does
not depend on where that is: in memory that is rotated around the top by some distance it runs alike, the
program counter always that distance further on (`Cpu.turns_displaced`). What is read at the program
counter is then the same (`FlatMemory.shows_rotated`), and a branch goes as far (`branchTarget_add`).
-/

namespace Cpu6502

theorem branchTarget_add (pc d : UInt16) (offset : UInt8) :
    branchTarget (pc + d) offset = branchTarget pc offset + d := by
  rw [branchTarget, branchTarget]
  grind

def Registers.displaced (r : Registers) (d : UInt16) : Registers := { r with pc := r.pc + d }

def Cpu.displaced (c : Cpu) (d : UInt16) : Cpu := { c with registers := c.registers.displaced d }

def Instruction.positionFree (i : Instruction) : Bool :=
  decide (i.mode ∈ [.implicit, .accumulator, .immediate, .relative]) &&
    !decide (i.mnemonic ∈ [.pha, .php, .pla, .plp, .rts, .rti])

def Opcode.positionFree (o : Opcode) : Bool :=
  match o.instruction with
  | some i => i.positionFree
  | none => true

theorem Instruction.branch_of_relative {code : UInt8} {m : Mnemonic}
    (hd : decode code = some ⟨m, .relative⟩) :
    ∃ flag wanted, m.action = .branch flag wanted := by
  have hmode := mode_mem_of_decode hd
  cases m with
  | bcc | bcs | beq | bne | bmi | bpl | bvc | bvs => exact ⟨_, _, rfl⟩
  | _ => exact absurd hmode (by decide)

theorem Instruction.positionFree_cases {code : UInt8} {i : Instruction} (hd : decode code = some i)
    (h : i.positionFree = true) :
    i.registerOnly = true ∨ i.mnemonic.action.answer = .halt ∨
      (i.mode = .relative ∧ ∃ flag wanted, i.mnemonic.action = .branch flag wanted) := by
  have hkind : i.registerOnly = true ∨ i.mnemonic.action.answer = .halt ∨ i.mode = .relative := by
    revert h
    apply of_decode hd
    intro m
    cases m <;> decide
  refine hkind.imp_right (Or.imp_right fun hmode => ⟨hmode, ?_⟩)
  obtain ⟨m, mode⟩ := i
  obtain rfl : mode = .relative := hmode
  exact branch_of_relative hd

namespace FlatMemory

variable {m m' : FlatMemory} {a d : UInt16}

theorem exists_shown (m : FlatMemory) (a : UInt16) (n : Nat) :
    ∃ vs : List UInt8, vs.length = n ∧ bus.Shows m a vs := by
  induction n generalizing a with
  | zero => exact ⟨[], rfl, trivial⟩
  | succ n ih =>
    obtain ⟨vs, hlength, hshows⟩ := ih (a + 1)
    exact ⟨m.read a :: vs, congrArg Nat.succ hlength, rfl, rfl, hshows⟩

theorem shows_rotated (hm : ∀ a, m'.read (a + d) = m.read a) {vs : List UInt8}
    (h : bus.Shows m a vs) : bus.Shows m' (a + d) vs := by
  induction vs generalizing a with
  | nil => trivial
  | cons v vs ih =>
    obtain ⟨-, hv, hvs⟩ := h
    have hnext : a + 1 + d = a + d + 1 := by grind
    refine ⟨rfl, (hm a).trans hv, ?_⟩
    rw [← hnext]
    exact ih hvs

end FlatMemory

structure Turn.Displaced (d : UInt16) (t u : Turn FlatMemory) : Prop where
  before : u.before = t.before.displaced d
  result : u.outcome.result = t.outcome.result
  registers : u.outcome.registers = t.outcome.registers.displaced d
  memory : t.outcome.memory = t.memory ∧ u.outcome.memory = u.memory

namespace Cpu

variable {c : Cpu} {m m' : FlatMemory} {d : UInt16} {r s : Registers} {policy : UnknownOpcodes}

structure Passes (c : Cpu) (m : FlatMemory) (result : Except Fault Step) (s : Registers) : Prop where
  result : (c.step FlatMemory.bus m).result = result
  registers : (c.step FlatMemory.bus m).registers = s
  memory : (c.step FlatMemory.bus m).memory = m

theorem passes_plain {l : Plain policy} (h : FlatMemory.bus.Shows m r.pc l.bytes) :
    Passes ⟨r, policy⟩ m (.ok .proceed)
      { l.effect r with pc := r.pc + UInt16.ofNat l.bytes.length } := by
  obtain ⟨hresult, hmemory, hregisters⟩ := Plain.step_shown h
  exact ⟨hresult, hregisters, hmemory⟩

theorem passes_halt (policy : UnknownOpcodes) (h : m.read r.pc = 0) :
    Passes ⟨r, policy⟩ m (.ok .halt) { r with pc := r.pc + 1 } := by
  obtain ⟨hresult, hregisters, hmemory, -⟩ :=
    step_zero (c := ⟨r, policy⟩) (show FlatMemory.bus.mapped m r.pc = true from rfl) h
  exact ⟨hresult, hregisters, hmemory⟩

theorem passes_refused (h : decode (m.read r.pc) = none) :
    Passes ⟨r, .error⟩ m (.error (.unimplementedOpcode (m.read r.pc))) { r with pc := r.pc + 1 } := by
  have hunknown : FlatMemory.bus.Undocumented m r.pc := ⟨rfl, h⟩
  obtain ⟨hresult, hregisters, hmemory⟩ := step_refused hunknown
  exact ⟨hresult, hregisters, hmemory⟩

theorem passes_branch (policy : UnknownOpcodes) {i : Instruction} {flag : Flag} {wanted : Bool}
    (hd : decode (m.read r.pc) = some i) (hmode : i.mode = .relative)
    (hact : i.mnemonic.action = .branch flag wanted) :
    Passes ⟨r, policy⟩ m (.ok .proceed) { r with
      pc := if r.status.has flag = wanted then
          branchTarget (r.pc + 1 + 1) (m.read (r.pc + 1))
        else r.pc + 1 + 1 } := by
  obtain ⟨hresult, hregisters, -⟩ := step_flat (c := ⟨r, policy⟩) hd
  have hmemory := memory_of_tail (c := ⟨r, policy⟩) hd
  rw [tail, hact] at hmemory
  rw [hact] at hresult hregisters
  rw [hmode] at hregisters
  refine ⟨hresult, hregisters.trans ?_, hmemory⟩
  by_cases htaken : r.status.has flag = wanted
  · rw [if_pos htaken]
    exact if_pos htaken
  · rw [if_neg htaken]
    exact if_neg htaken

theorem Passes.displaced {result : Except Fault Step} {p q : UInt16}
    (h : c.Passes m result { s with pc := p })
    (h' : (c.displaced d).Passes m' result { s with pc := q }) (hpc : q = p + d) :
    Turn.Displaced d ⟨c.registers, m, c.step FlatMemory.bus m⟩
      ⟨c.registers.displaced d, m', (c.displaced d).step FlatMemory.bus m'⟩ where
  before := rfl
  result := h'.result.trans h.result.symm
  registers := by
    rw [h'.registers, h.registers, hpc, Registers.displaced]
  memory := ⟨h.memory, h'.memory⟩

theorem exists_plain (h : (Opcode.ofCode (m.read r.pc)).registerOnly policy = true) :
    ∃ l : Plain policy, FlatMemory.bus.Shows m r.pc l.bytes := by
  obtain ⟨operand, hlength, hshows⟩ :=
    m.exists_shown (r.pc + 1) (Opcode.ofCode (m.read r.pc)).mode.operandBytes
  exact ⟨⟨m.read r.pc, operand, h, hlength⟩, rfl, rfl, hshows⟩

section Step

variable (hm : ∀ a, m'.read (a + d) = m.read a)
include hm

theorem step_displaced_plain (h : (Opcode.ofCode (m.read r.pc)).registerOnly policy = true) :
    Turn.Displaced d ⟨r, m, step ⟨r, policy⟩ FlatMemory.bus m⟩
      ⟨r.displaced d, m', step ⟨r.displaced d, policy⟩ FlatMemory.bus m'⟩ := by
  obtain ⟨l, hshows⟩ := exists_plain h
  have hpasses' := passes_plain (r := r.displaced d) (FlatMemory.shows_rotated hm hshows)
  rw [Registers.displaced, l.effect_pc] at hpasses'
  refine (passes_plain hshows).displaced hpasses' ?_
  change r.pc + d + UInt16.ofNat l.bytes.length = r.pc + UInt16.ofNat l.bytes.length + d
  grind

theorem step_displaced_branch {i : Instruction} {flag : Flag} {wanted : Bool}
    (hd : decode (m.read r.pc) = some i) (hmode : i.mode = .relative)
    (hact : i.mnemonic.action = .branch flag wanted) :
    Turn.Displaced d ⟨r, m, step ⟨r, policy⟩ FlatMemory.bus m⟩
      ⟨r.displaced d, m', step ⟨r.displaced d, policy⟩ FlatMemory.bus m'⟩ := by
  have hd' : decode (m'.read (r.displaced d).pc) = some i := (congrArg decode (hm r.pc)).trans hd
  have hoperand : r.pc + d + 1 = r.pc + 1 + d := by grind
  have hnext : r.pc + 1 + d + 1 = r.pc + 1 + 1 + d := by grind
  refine (passes_branch policy hd hmode hact).displaced (passes_branch policy hd' hmode hact) ?_
  change (if r.status.has flag = wanted then
      branchTarget (r.pc + d + 1 + 1) (m'.read (r.pc + d + 1)) else r.pc + d + 1 + 1) = _
  rw [hoperand, hm, hnext, branchTarget_add]
  split <;> rfl

theorem step_displaced_halt (h : m.read r.pc = 0) :
    Turn.Displaced d ⟨r, m, step ⟨r, policy⟩ FlatMemory.bus m⟩
      ⟨r.displaced d, m', step ⟨r.displaced d, policy⟩ FlatMemory.bus m'⟩ := by
  have h' : m'.read (r.displaced d).pc = 0 := (hm r.pc).trans h
  refine (passes_halt policy h).displaced (passes_halt policy h') ?_
  change r.pc + d + 1 = r.pc + 1 + d
  grind

theorem step_displaced_refused (h : decode (m.read r.pc) = none) :
    Turn.Displaced d ⟨r, m, step ⟨r, .error⟩ FlatMemory.bus m⟩
      ⟨r.displaced d, m', step ⟨r.displaced d, .error⟩ FlatMemory.bus m'⟩ := by
  have hcode : m'.read (r.displaced d).pc = m.read r.pc := hm r.pc
  have hpasses' := passes_refused ((congrArg decode hcode).trans h)
  rw [hcode] at hpasses'
  refine (passes_refused h).displaced hpasses' ?_
  change r.pc + d + 1 = r.pc + 1 + d
  grind

theorem step_displaced (h : (Opcode.ofCode (m.read r.pc)).positionFree = true) :
    Turn.Displaced d ⟨r, m, step ⟨r, policy⟩ FlatMemory.bus m⟩
      ⟨r.displaced d, m', step ⟨r.displaced d, policy⟩ FlatMemory.bus m'⟩ := by
  rw [Opcode.ofCode] at h
  cases hd : decode (m.read r.pc) with
  | none =>
    cases policy with
    | skip =>
      refine step_displaced_plain hm ?_
      rw [Opcode.ofCode, hd]
      rfl
    | error => exact step_displaced_refused hm hd
  | some i =>
    rw [hd] at h
    rcases Instruction.positionFree_cases hd h with
      honly | hhalt | ⟨hmode, flag, wanted, hact⟩
    · refine step_displaced_plain hm ?_
      rw [Opcode.ofCode, hd]
      exact honly
    · exact step_displaced_halt hm (eq_zero_of_answer hd hhalt)
    · exact step_displaced_branch hm hd hmode hact

end Step

/-- Turns that are position free go the same in memory that is rotated by `d`, with the same results and
the same registers, but for the program counter, which is `d` further on around the top. -/
theorem turns_displaced (hm : ∀ a, m'.read (a + d) = m.read a) (c : Cpu) (k : Nat)
    (h : ∀ t ∈ c.turns FlatMemory.bus m k, (t.opcode FlatMemory.bus).positionFree = true) :
    List.Forall₂ (Turn.Displaced d) (c.turns FlatMemory.bus m k)
      ((c.displaced d).turns FlatMemory.bus m' k) := by
  induction k generalizing c with
  | zero => exact .nil
  | succ k ih =>
    obtain ⟨hfirst, hrest⟩ := List.forall_mem_cons.mp h
    let o := c.step FlatMemory.bus m
    let o' := (c.displaced d).step FlatMemory.bus m'
    have hturn : Turn.Displaced d ⟨c.registers, m, o⟩ ⟨c.registers.displaced d, m', o'⟩ :=
      step_displaced hm hfirst
    have hmemory : o.memory = m := hturn.memory.1
    have hmemory' : o'.memory = m' := hturn.memory.2
    have hregisters : o'.registers = o.registers.displaced d := hturn.registers
    refine .cons hturn ?_
    -- the second turns start from what the first leave: the same memories, as far apart as before
    change List.Forall₂ _ (turns ⟨o.registers, c.policy⟩ _ o.memory k)
      (turns ⟨o'.registers, c.policy⟩ _ o'.memory k)
    rw [hmemory, hmemory', hregisters]
    refine ih ⟨o.registers, c.policy⟩ ?_
    rw [← hmemory]
    exact hrest

def recoiling (a : UInt16) : FlatMemory :=
  -- `BCC` at `a`, whose offset leads back to right below it
  (FlatMemory.zeroed.write a 0x90).write (a + 1) 0xFD

theorem recoiling_read (a b : UInt16) :
    (recoiling a).read b = if a + 1 = b then 0xFD else if a = b then 0x90 else 0 := by
  simp only [recoiling, FlatMemory.read_write, FlatMemory.read_zeroed]

theorem turns_displaced_recoiling :
    let m := recoiling 0xFFFF
    let m' := recoiling 0
    let c : Cpu := ⟨{ Registers.powerOn with pc := 0xFFFF }, .error⟩
    (∀ a, m'.read (a + 1) = m.read a) ∧
      (∀ t ∈ c.turns FlatMemory.bus m 2, (t.opcode FlatMemory.bus).positionFree = true) ∧
      (c.step FlatMemory.bus m).registers.pc = 0xFFFE ∧
      List.Forall₂ (Turn.Displaced 1) (c.turns FlatMemory.bus m 2)
        ((c.displaced 1).turns FlatMemory.bus m' 2) := by
  intro m m' c
  have hm : ∀ a, m'.read (a + 1) = m.read a := by
    intro a
    simp only [m, m', recoiling_read]
    grind
  have hcode : m.read 0xFFFF = 0x90 := by
    rw [recoiling_read]
    rfl
  have hoffset : m.read (0xFFFF + 1) = 0xFD := by
    rw [recoiling_read]
    rfl
  have hbehind : m.read 0xFFFE = 0 := by
    rw [recoiling_read]
    rfl
  have hbranch : c.Passes m (.ok .proceed) { c.registers with pc := 0xFFFE } := by
    have hd : decode (m.read c.registers.pc) = some ⟨.bcc, .relative⟩ :=
      (congrArg decode hcode).trans rfl
    have hclear : c.registers.status.has .carry = false := by decide
    have hpasses := passes_branch (r := c.registers) c.policy hd rfl rfl
    have htarget : branchTarget (c.registers.pc + 1 + 1) (m.read (c.registers.pc + 1)) = 0xFFFE :=
      (congrArg (branchTarget (0xFFFF + 1 + 1)) hoffset).trans rfl
    rwa [if_pos hclear, htarget] at hpasses
  have hfree : ∀ t ∈ c.turns FlatMemory.bus m 2, (t.opcode FlatMemory.bus).positionFree = true := by
    refine List.forall_mem_cons.mpr ⟨?_, List.forall_mem_singleton.mpr ?_⟩
    · exact congrArg (fun code => (Opcode.ofCode code).positionFree) hcode
    · rw [hbranch.registers, hbranch.memory]
      exact congrArg (fun code => (Opcode.ofCode code).positionFree) hbehind
  refine ⟨hm, hfree, ?_, turns_displaced hm c 2 hfree⟩
  rw [hbranch.registers]

end Cpu

end Cpu6502
