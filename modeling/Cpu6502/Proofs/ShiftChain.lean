import Cpu6502.Proofs.LongArithmetic
import Cpu6502.Proofs.ResultFlags
import Cpu6502.Proofs.Shift

/-!
Shifts of numbers of any length. A move shifts the byte at one target, and what moves leave is found one
by one (`Move.effects`). A chain shifts the cells of a number from one end to the other, the first by
itself and the others through the carry, so it doubles the number (`Shift.chain_left`) or halves it
(`Shift.chain_right`), and the carry is the bit that falls out. Rotations of one target turn its ring
(`Move.effects_rotate`). The processor makes the moves that its program has, one at each step
(`Cpu.makes_of_loaded`, `Cpu.after_of_makes`), and changes nothing beside their targets
(`Cpu.confined_of_makes`).
-/

namespace Cpu6502

inductive Target where
  | accumulator
  | cell (addr : UInt16)
deriving DecidableEq

def AddressingMode.target (read : UInt16 → UInt8) (r : Registers) (mode : AddressingMode) : Target :=
  if mode = .accumulator then .accumulator else .cell (mode.address read r)

namespace Target

def get (s : Registers × FlatMemory) : Target → UInt8
  | accumulator => s.1.a
  | cell addr => s.2.read addr

def put (s : Registers × FlatMemory) (v : UInt8) : Target → Registers × FlatMemory
  | accumulator => ({ s.1 with a := v }, s.2)
  | cell addr => (s.1, s.2.write addr v)

variable (s : Registers × FlatMemory) (v : UInt8) (target : Target)

theorem get_put : target.get (target.put s v) = v := by
  cases target with
  | accumulator => rfl
  | cell addr => exact (s.2.read_write addr addr v).trans (if_pos rfl)

theorem put_status : (target.put s v).1.status = s.1.status := by cases target <;> rfl

theorem put_register {reg : Register} (h : target = .accumulator → reg ≠ .a) :
    (target.put s v).1.get reg = s.1.get reg := by
  cases target with
  | accumulator =>
    cases reg with
    | a => exact absurd rfl (h rfl)
    | _ => rfl
  | cell addr => rfl

theorem put_read {addr : UInt16} (h : target ≠ .cell addr) :
    (target.put s v).2.read addr = s.2.read addr := by
  cases target with
  | accumulator => rfl
  | cell other =>
    have hne : other ≠ addr := fun heq => h (congrArg cell heq)
    exact (s.2.read_write other addr v).trans (if_neg hne)

theorem get_pc (w : UInt16) : target.get ({ s.1 with pc := w }, s.2) = target.get s := by
  cases target <;> rfl

end Target

structure Move where
  shift : Shift
  target : Target

namespace Move

def effect (mv : Move) (s : Registers × FlatMemory) : Registers × FlatMemory :=
  let p := s.1.status
  let v := mv.target.get s
  let new := mv.shift.change.byte p v
  mv.target.put ({ s.1 with status := (mv.shift.change.flags p v).withResult new }, s.2) new

def effects (mvs : List Move) (s : Registers × FlatMemory) : Registers × FlatMemory :=
  mvs.foldl (fun s mv => mv.effect s) s

variable (mv : Move) (mvs : List Move) (s : Registers × FlatMemory)

theorem effects_cons : effects (mv :: mvs) s = effects mvs (mv.effect s) := rfl

theorem effects_append (others : List Move) :
    effects (mvs ++ others) s = effects others (effects mvs s) := List.foldl_append

theorem effect_get :
    mv.target.get (mv.effect s) = mv.shift.change.byte s.1.status (mv.target.get s) :=
  mv.target.get_put _ _

theorem effect_status :
    (mv.effect s).1.status = (mv.shift.change.flags s.1.status (mv.target.get s)).withResult
      (mv.target.get (mv.effect s)) := by
  rw [effect_get]
  exact mv.target.put_status _ _

theorem effect_carry :
    (mv.effect s).1.status.has .carry =
      (mv.shift.change.flags s.1.status (mv.target.get s)).has .carry := by
  rw [effect_status, Status.has_withResult]
  rfl

theorem effect_flags {f : Flag} (hf : f ∉ [Flag.carry, .zero, .negative]) :
    (mv.effect s).1.status.has f = s.1.status.has f := by
  simp only [List.mem_cons, List.not_mem_nil, or_false, not_or] at hf
  rw [effect_status, Status.has_withResult, if_neg hf.2.1, if_neg hf.2.2]
  exact Shift.flags_other _ _ mv.shift hf.1

theorem effect_left (target : Target) (through : Bool) :
    let mv : Move := ⟨⟨.left, through⟩, target⟩
    (mv.target.get (mv.effect s)).toNat + 256 * ((mv.effect s).1.status.has .carry).toNat =
      2 * (mv.target.get s).toNat + (mv.shift.carryIn s.1.status).toNat := by
  intro mv
  rw [effect_get, effect_carry]
  exact Shift.left_value s.1.status (target.get s) through

theorem effect_right (target : Target) (through : Bool) :
    let mv : Move := ⟨⟨.right, through⟩, target⟩
    2 * (mv.target.get (mv.effect s)).toNat + ((mv.effect s).1.status.has .carry).toNat =
      (mv.target.get s).toNat + 256 * (mv.shift.carryIn s.1.status).toNat := by
  intro mv
  rw [effect_get, effect_carry]
  exact Shift.right_value s.1.status (target.get s) through

theorem effect_pc (w : UInt16) :
    mv.effect ({ s.1 with pc := w }, s.2) =
      ({ (mv.effect s).1 with pc := w }, (mv.effect s).2) := by
  obtain ⟨shift, target⟩ := mv
  cases target <;> rfl

theorem effects_pc (w : UInt16) :
    effects mvs ({ s.1 with pc := w }, s.2) =
      ({ (effects mvs s).1 with pc := w }, (effects mvs s).2) := by
  induction mvs generalizing s with
  | nil => rfl
  | cons mv mvs ih => rw [effects_cons, effects_cons, effect_pc, ih]

theorem effect_register {reg : Register} (h : mv.target = .accumulator → reg ≠ .a) :
    (mv.effect s).1.get reg = s.1.get reg :=
  (mv.target.put_register _ _ h).trans (by cases reg <;> rfl)

theorem effect_read {addr : UInt16} (h : mv.target ≠ .cell addr) :
    (mv.effect s).2.read addr = s.2.read addr := mv.target.put_read _ _ h

theorem effects_read {addr : UInt16} (h : ∀ mv ∈ mvs, mv.target ≠ .cell addr) :
    (effects mvs s).2.read addr = s.2.read addr := by
  induction mvs generalizing s with
  | nil => rfl
  | cons mv mvs ih =>
    obtain ⟨hfirst, hrest⟩ := List.forall_mem_cons.mp h
    rw [effects_cons, ih _ hrest, effect_read mv s hfirst]

end Move

namespace FlatMemory

variable {m n : FlatMemory} {addrs : List UInt16}

def number (m : FlatMemory) (addrs : List UInt16) : Nat := littleEndian (addrs.map m.read)

theorem number_congr (h : ∀ addr ∈ addrs, m.read addr = n.read addr) :
    m.number addrs = n.number addrs := congrArg littleEndian (List.map_congr_left h)

theorem number_lt (m : FlatMemory) (addrs : List UInt16) : m.number addrs < 256 ^ addrs.length :=
  (littleEndian_lt _).trans_eq (congrArg (256 ^ ·) (List.length_map _))

theorem number_cons (m : FlatMemory) (addr : UInt16) (addrs : List UInt16) :
    m.number (addr :: addrs) = (m.read addr).toNat + 256 * m.number addrs := rfl

theorem number_snoc (m : FlatMemory) (addrs : List UInt16) (addr : UInt16) :
    m.number (addrs ++ [addr]) = m.number addrs + 256 ^ addrs.length * (m.read addr).toNat := by
  simp [number, littleEndian, Nat.ofDigits_append]

end FlatMemory

namespace Shift

def chain (first : Shift) : List UInt16 → List Move
  | [] => []
  | addr :: addrs => ⟨first, .cell addr⟩ :: chain { first with through := true } addrs

variable {addrs : List UInt16} {through : Bool}

theorem chain_targets (first : Shift) (addrs : List UInt16) :
    (first.chain addrs).map (·.target) = addrs.map .cell := by
  induction addrs generalizing first with
  | nil => rfl
  | cons addr addrs ih => rw [chain, List.map_cons, List.map_cons, ih]

theorem chain_length (first : Shift) (addrs : List UInt16) :
    (first.chain addrs).length = addrs.length := by
  rw [← List.length_map, chain_targets, List.length_map]

theorem chain_read (first : Shift) {addr : UInt16} (h : addr ∉ addrs) (s : Registers × FlatMemory) :
    (Move.effects (first.chain addrs) s).2.read addr = s.2.read addr := by
  refine Move.effects_read _ s fun mv hmv heq => h ?_
  have hmem : mv.target ∈ addrs.map .cell := chain_targets first addrs ▸ List.mem_map_of_mem hmv
  simpa [heq] using hmem

theorem chain_left (h : addrs.Nodup) (hlast : through = true ∨ addrs ≠ [])
    (s : Registers × FlatMemory) :
    let first : Shift := ⟨.left, through⟩
    let t := Move.effects (first.chain addrs) s
    t.2.number addrs + 256 ^ addrs.length * (t.1.status.has .carry).toNat =
      2 * s.2.number addrs + (first.carryIn s.1.status).toNat := by
  induction addrs generalizing s through with
  | nil =>
    obtain rfl : through = true := hlast.resolve_right (· rfl)
    simp [chain, Move.effects, FlatMemory.number, littleEndian, carryIn]
  | cons addr addrs ih =>
    intro first t
    rw [List.nodup_cons] at h
    let mv : Move := ⟨first, .cell addr⟩
    let u := mv.effect s
    have hfirst : (u.2.read addr).toNat + 256 * (u.1.status.has .carry).toNat =
        2 * (s.2.read addr).toNat + (first.carryIn s.1.status).toNat :=
      Move.effect_left s (.cell addr) through
    have hrest : t.2.number addrs + 256 ^ addrs.length * (t.1.status.has .carry).toNat =
        2 * u.2.number addrs + (u.1.status.has .carry).toNat := ih h.2 (.inl rfl) u
    -- the cells above do not touch the first one, nor it them
    have hlow : t.2.read addr = u.2.read addr := chain_read _ h.1 u
    have hhigh : u.2.number addrs = s.2.number addrs :=
      FlatMemory.number_congr fun a ha => mv.effect_read s fun heq => h.1 (by cases heq; exact ha)
    rw [FlatMemory.number_cons, FlatMemory.number_cons, hlow, List.length_cons, pow_succ, ← hhigh]
    linarith

theorem chain_right (h : addrs.Nodup) (hlast : through = true ∨ addrs ≠ [])
    (s : Registers × FlatMemory) :
    let first : Shift := ⟨.right, through⟩
    let t := Move.effects (first.chain addrs) s
    2 * t.2.number addrs.reverse + (t.1.status.has .carry).toNat =
      s.2.number addrs.reverse + 256 ^ addrs.length * (first.carryIn s.1.status).toNat := by
  induction addrs generalizing s through with
  | nil =>
    obtain rfl : through = true := hlast.resolve_right (· rfl)
    simp [chain, Move.effects, FlatMemory.number, littleEndian, carryIn]
  | cons addr addrs ih =>
    intro first t
    rw [List.nodup_cons] at h
    let mv : Move := ⟨first, .cell addr⟩
    let u := mv.effect s
    have hfirst : 2 * (u.2.read addr).toNat + (u.1.status.has .carry).toNat =
        (s.2.read addr).toNat + 256 * (first.carryIn s.1.status).toNat :=
      Move.effect_right s (.cell addr) through
    have hrest : 2 * t.2.number addrs.reverse + (t.1.status.has .carry).toNat =
        u.2.number addrs.reverse + 256 ^ addrs.length * (u.1.status.has .carry).toNat :=
      ih h.2 (.inl rfl) u
    have hhigh : t.2.read addr = u.2.read addr := chain_read _ h.1 u
    have hlow : u.2.number addrs.reverse = s.2.number addrs.reverse :=
      FlatMemory.number_congr fun a ha => mv.effect_read s fun heq =>
        h.1 (by cases heq; exact List.mem_reverse.mp ha)
    rw [List.reverse_cons, FlatMemory.number_snoc, FlatMemory.number_snoc, hhigh,
      List.length_reverse, List.length_cons, pow_succ, ← hlow]
    have hscaled := congrArg (256 ^ addrs.length * ·) hfirst
    simp only [Nat.mul_add] at hscaled
    linarith

theorem chain_right_reverse (h : addrs.Nodup) (hlast : through = true ∨ addrs ≠ [])
    (s : Registers × FlatMemory) :
    let first : Shift := ⟨.right, through⟩
    let t := Move.effects (first.chain addrs.reverse) s
    2 * t.2.number addrs + (t.1.status.has .carry).toNat =
      s.2.number addrs + 256 ^ addrs.length * (first.carryIn s.1.status).toNat := by
  have hlast : through = true ∨ addrs.reverse ≠ [] := hlast.imp_right (mt List.reverse_eq_nil_iff.mp)
  simpa only [List.reverse_reverse, List.length_reverse] using
    chain_right (List.nodup_reverse.mpr h) hlast s

theorem chain_doubles (h : addrs.Nodup) (hne : addrs ≠ []) (s : Registers × FlatMemory) :
    let t := Move.effects ((⟨.left, false⟩ : Shift).chain addrs) s
    let x := s.2.number addrs
    t.2.number addrs = 2 * x % 256 ^ addrs.length ∧
      (t.1.status.has .carry = true ↔ 256 ^ addrs.length / 2 ≤ x) := by
  intro t x
  have hlt := t.2.number_lt addrs
  have hvalue : t.2.number addrs + 256 ^ addrs.length * (t.1.status.has .carry).toNat = 2 * x :=
    chain_left h (.inr hne) s
  have heven : 2 ∣ 256 ^ addrs.length := dvd_pow (by decide) (mt List.length_eq_zero_iff.mp hne)
  constructor
  · rw [← hvalue, Nat.add_mul_mod_self_left, Nat.mod_eq_of_lt hlt]
  · rw [Operation.carry_of_sum hlt hvalue]
    omega

theorem chain_halves (h : addrs.Nodup) (hne : addrs ≠ []) (s : Registers × FlatMemory) :
    let t := Move.effects ((⟨.right, false⟩ : Shift).chain addrs.reverse) s
    let x := s.2.number addrs
    t.2.number addrs = x / 2 ∧ (t.1.status.has .carry).toNat = x % 2 := by
  intro t x
  have hcarry := (t.1.status.has .carry).toNat_le
  have hvalue : 2 * t.2.number addrs + (t.1.status.has .carry).toNat = x :=
    chain_right_reverse h (.inr hne) s
  omega

theorem chain_restores (h : addrs.Nodup) (hne : addrs ≠ []) (s : Registers × FlatMemory) :
    let up := (⟨.left, false⟩ : Shift).chain addrs
    let back := (⟨.right, true⟩ : Shift).chain addrs.reverse
    (Move.effects (up ++ back) s).2.number addrs = s.2.number addrs := by
  intro up back
  let u := Move.effects up s
  let t := Move.effects back u
  have ht : Move.effects (up ++ back) s = t := Move.effects_append up s back
  have hcarry := (t.1.status.has .carry).toNat_le
  have hup : u.2.number addrs + 256 ^ addrs.length * (u.1.status.has .carry).toNat =
      2 * s.2.number addrs := chain_left h (.inr hne) s
  -- the bit that has gone into the carry comes back from there
  have hdown : 2 * t.2.number addrs + (t.1.status.has .carry).toNat =
      u.2.number addrs + 256 ^ addrs.length * (u.1.status.has .carry).toNat :=
    chain_right_reverse h (.inl rfl) u
  rw [ht]
  omega

end Shift

def Target.ring (s : Registers × FlatMemory) (target : Target) : BitVec 9 :=
  s.1.status.ring (target.get s)

theorem Move.effect_rotate (d : Direction) (target : Target) (s : Registers × FlatMemory) :
    target.ring ((⟨⟨d, true⟩, target⟩ : Move).effect s) = (target.ring s).rotateLeft d.places := by
  let mv : Move := ⟨⟨d, true⟩, target⟩
  have hring := Shift.rotation_ring d s.1.status (target.get s)
  rw [Target.ring, Target.ring, ← hring, Status.ring, Status.ring, mv.effect_carry, mv.effect_get]

def Direction.turn (ds : List Direction) : Nat :=
  (((ds.count .left : Int) - ds.count .right) % 9).toNat

theorem Direction.turn_eq (ds : List Direction) : turn ds = (ds.map (·.places)).sum % 9 := by
  have hsum : (ds.map (·.places)).sum = ds.count .left + 8 * ds.count .right := by
    induction ds with
    | nil => rfl
    | cons d ds ih =>
      rw [List.map_cons, List.sum_cons, ih]
      cases d with
      | left =>
        rw [List.count_cons_self, List.count_cons_of_ne (by decide), places]
        omega
      | right =>
        rw [List.count_cons_self, List.count_cons_of_ne (by decide), places]
        omega
  rw [turn, hsum]
  omega

theorem Move.effects_rotate (ds : List Direction) (target : Target) (s : Registers × FlatMemory) :
    target.ring (effects (ds.map fun d => ⟨⟨d, true⟩, target⟩) s) =
      (target.ring s).rotateLeft (Direction.turn ds) := by
  rw [Direction.turn_eq, BitVec.rotateLeft_mod_eq_rotateLeft]
  induction ds generalizing s with
  | nil => exact (rotateLeft_zero _).symm
  | cons d ds ih =>
    rw [List.map_cons, effects_cons, ih, effect_rotate, rotateLeft_add, List.map_cons, List.sum_cons]

namespace Turn

def Makes (t : Turn FlatMemory) (mv : Move) : Prop :=
  ∃ mode, decode (t.memory.read t.before.pc) = some ⟨mv.shift.mnemonic, mode⟩ ∧
    mode.target t.memory.read (t.before.past 1) = mv.target

structure Confined (t : Turn FlatMemory) (target : Target) : Prop where
  proceeds : t.Proceeds
  described :
    t.outcome.registers.status.Describes (target.get (t.outcome.registers, t.outcome.memory))
  flags : ∀ f ∉ [Flag.carry, .zero, .negative],
    t.outcome.registers.status.has f = t.before.status.has f
  registers : ∀ reg, (target = .accumulator → reg ≠ .a) →
    t.outcome.registers.get reg = t.before.get reg
  memory : ∀ addr, target ≠ .cell addr → t.outcome.memory.read addr = t.memory.read addr

end Turn

namespace Cpu

def Makes (c : Cpu) (m : FlatMemory) (mvs : List Move) : Prop :=
  List.Forall₂ Turn.Makes (c.turns FlatMemory.bus m mvs.length) mvs

variable {c : Cpu} {m : FlatMemory} {mv : Move} {mvs : List Move}

theorem makes_cons :
    c.Makes m (mv :: mvs) ↔
      let o := c.step FlatMemory.bus m
      Turn.Makes ⟨c.registers, m, o⟩ mv ∧
        Makes { c with registers := o.registers } o.memory mvs := List.forall₂_cons

theorem step_shift {mode : AddressingMode}
    (hd : decode (m.read c.registers.pc) = some ⟨mv.shift.mnemonic, mode⟩)
    (ht : mode.target m.read (c.registers.past 1) = mv.target) :
    let o := c.step FlatMemory.bus m
    let s := mv.effect (c.registers, m)
    o.result = .ok .proceed ∧
      o.registers = { s.1 with pc := c.registers.pc + UInt16.ofNat (1 + mode.operandBytes) } ∧
      o.memory = s.2 := by
  obtain ⟨shift, target⟩ := mv
  obtain ⟨hresult, hregisters, -⟩ := step_flat hd
  have hmemory := memory_of_tail hd
  simp only [shift.action_eq, Registers.past_past] at hresult hregisters
  simp only [tail, shift.action_eq, Registers.past_past] at hmemory
  subst ht
  by_cases hacc : mode = .accumulator
  · subst hacc
    exact ⟨hresult, hregisters, hmemory⟩
  · have htarget : mode.target m.read (c.registers.past 1) =
        .cell (mode.address m.read (c.registers.past 1)) := if_neg hacc
    rw [htarget]
    simp only [Action.finish, if_neg hacc] at hregisters
    simp only [Action.tail, if_neg hacc] at hmemory
    exact ⟨hresult, hregisters, hmemory⟩

theorem confined_of_step (h : Turn.Makes ⟨c.registers, m, c.step FlatMemory.bus m⟩ mv) :
    Turn.Confined ⟨c.registers, m, c.step FlatMemory.bus m⟩ mv.target := by
  obtain ⟨mode, hd, ht⟩ := h
  obtain ⟨hresult, hregisters, hmemory⟩ := step_shift hd ht
  constructor
  · exact hresult
  · rw [hregisters, hmemory, Target.get_pc, Move.effect_status]
    exact Status.describes_withResult _ _
  · intro f hf
    rw [hregisters]
    exact mv.effect_flags _ hf
  · intro reg hreg
    rw [hregisters]
    have hget := mv.effect_register (c.registers, m) hreg
    cases reg <;> exact hget
  · intro addr haddr
    rw [hmemory]
    exact mv.effect_read _ haddr

theorem confined_of_makes (h : c.Makes m mvs) :
    List.Forall₂ Turn.Confined (c.turns FlatMemory.bus m mvs.length) (mvs.map (·.target)) := by
  induction mvs generalizing c m with
  | nil => exact .nil
  | cons mv mvs ih =>
    obtain ⟨hfirst, hrest⟩ := makes_cons.mp h
    exact .cons (confined_of_step hfirst) (ih hrest)

theorem after_of_makes (h : c.Makes m mvs) {n : Nat} (hn : mvs.length = n) :
    let s := Move.effects mvs (c.registers, m)
    ∃ w, c.after FlatMemory.bus m n = ({ c with registers := { s.1 with pc := w } }, s.2) := by
  subst hn
  induction mvs generalizing c m with
  | nil => exact ⟨c.registers.pc, rfl⟩
  | cons mv mvs ih =>
    obtain ⟨hfirst, hrest⟩ := makes_cons.mp h
    obtain ⟨mode, hd, ht⟩ := hfirst
    obtain ⟨-, hregisters, hmemory⟩ := step_shift hd ht
    obtain ⟨w, hafter⟩ := ih hrest
    refine ⟨w, hafter.trans ?_⟩
    rw [hregisters, hmemory, Move.effects_pc]
    rfl

end Cpu

namespace Target

def mode : Target → AddressingMode
  | accumulator => .accumulator
  | cell _ => .absolute

def operand : Target → List UInt8
  | accumulator => []
  | cell addr => [lowByte addr, highByte addr]

theorem operand_length (target : Target) : target.operand.length = target.mode.operandBytes := by
  cases target <;> rfl

end Target

namespace Move

theorem documented (mv : Move) :
    (⟨mv.shift.mnemonic, mv.target.mode⟩ : Instruction).encode?.isSome := by
  obtain ⟨⟨direction, through⟩, target⟩ := mv
  cases direction <;> cases through <;> cases target <;> rfl

def line (mv : Move) : Line where
  instruction := ⟨mv.shift.mnemonic, mv.target.mode⟩
  operand := mv.target.operand
  documented := mv.documented
  operand_length := mv.target.operand_length

def code (mvs : List Move) : List UInt8 := mvs.flatMap (·.line.bytes)

example : code ((⟨.left, false⟩ : Shift).chain [0x0200, 0x0300]) =
    [0x0E, 0x00, 0x02, 0x2E, 0x00, 0x03] := rfl

theorem line_target {mv : Move} {c : Cpu} {m : FlatMemory}
    (h : m.Contains c.registers.pc mv.line.bytes) :
    mv.target.mode.target m.read (c.registers.past 1) = mv.target := by
  obtain ⟨shift, target⟩ := mv
  cases target with
  | accumulator => rfl
  | cell addr => exact congrArg Target.cell (Line.absolute_address h rfl)

end Move

namespace Cpu

/-- Code for the moves is at the program counter, apart from the cells that they change. -/
structure Loaded (c : Cpu) (m : FlatMemory) (mvs : List Move) : Prop where
  code : m.Contains c.registers.pc (Move.code mvs)
  apart : ∀ mv ∈ mvs, ∀ k < (Move.code mvs).length,
    mv.target ≠ .cell (c.registers.pc + UInt16.ofNat k)

variable {c : Cpu} {m : FlatMemory} {mvs : List Move}

theorem makes_of_loaded (h : c.Loaded m mvs) : c.Makes m mvs := by
  induction mvs generalizing c m with
  | nil => exact .nil
  | cons mv mvs ih =>
    have hcons : Move.code (mv :: mvs) = mv.line.bytes ++ Move.code mvs := List.flatMap_cons
    have hlength : mv.line.bytes.length = 1 + mv.target.mode.operandBytes := by
      rw [← mv.target.operand_length, Nat.add_comm]
      rfl
    obtain ⟨hcode, hapart⟩ := h
    rw [hcons, FlatMemory.contains_append] at hcode
    rw [hcons, List.length_append] at hapart
    obtain ⟨hline, hrest⟩ := hcode
    have hd : decode (m.read c.registers.pc) = some ⟨mv.shift.mnemonic, mv.target.mode⟩ :=
      Line.decode_read hline
    have ht := Move.line_target hline
    obtain ⟨-, hregisters, hmemory⟩ := step_shift hd ht
    rw [← hlength] at hregisters
    have hoff (a) (ha : a ∈ mv :: mvs) (k) (hk : k < (Move.code mvs).length) :
        a.target ≠ .cell (c.registers.pc + UInt16.ofNat mv.line.bytes.length + UInt16.ofNat k) := by
      rw [UInt16.add_assoc, ← UInt16.ofNat_add]
      exact hapart a ha _ (Nat.add_lt_add_left hk _)
    refine makes_cons.mpr ⟨⟨_, hd, ht⟩, ih ⟨?_, ?_⟩⟩
    · intro k hk
      rw [hregisters, hmemory]
      exact (mv.effect_read _ (hoff mv List.mem_cons_self k hk)).trans (hrest k hk)
    · rw [hregisters]
      exact fun a ha => hoff a (List.mem_cons_of_mem _ ha)

theorem loaded_load {start : UInt16} (hpc : c.registers.pc = start)
    (hsize : (Move.code mvs).length ≤ 65536)
    (hapart : ∀ mv ∈ mvs, ∀ k < (Move.code mvs).length,
      mv.target ≠ .cell (start + UInt16.ofNat k)) :
    c.Loaded (m.load start (Move.code mvs)) mvs := by
  subst hpc
  exact ⟨FlatMemory.contains_load hsize, hapart⟩

/-- Code makes its moves. Whatever shifts are made, each changes only its target, the flags and the program
counter, and zero and negative describe the byte there. A chain up through a number doubles it and one
down halves it, with the bit that falls out in the carry, and a chain of rotations back down undoes the
doubling. Rotations of one target turn its nine bits by as many places as more of them go to the
left. -/
theorem shifts_through_carry (c : Cpu) (m : FlatMemory) :
    (∀ mvs, c.Loaded m mvs → c.Makes m mvs) ∧
      (∀ mvs, c.Makes m mvs → List.Forall₂ Turn.Confined (c.turns FlatMemory.bus m mvs.length)
        (mvs.map (·.target))) ∧
      (∀ addrs : List UInt16, addrs ≠ [] → addrs.Nodup →
        let n := addrs.length
        let x := m.number addrs
        let up := (⟨.left, false⟩ : Shift).chain addrs
        let down := (⟨.right, false⟩ : Shift).chain addrs.reverse
        let back := (⟨.right, true⟩ : Shift).chain addrs.reverse
        let t := c.after FlatMemory.bus m n
        (c.Makes m up → t.2.number addrs = 2 * x % 256 ^ n ∧
            (t.1.registers.status.has .carry = true ↔ 256 ^ n / 2 ≤ x)) ∧
          (c.Makes m down → t.2.number addrs = x / 2 ∧
            (t.1.registers.status.has .carry).toNat = x % 2) ∧
          (c.Makes m (up ++ back) → (c.after FlatMemory.bus m (n + n)).2.number addrs = x)) ∧
      ∀ (target : Target) (ds : List Direction),
        c.Makes m (ds.map fun d => ⟨⟨d, true⟩, target⟩) →
          let t := c.after FlatMemory.bus m ds.length
          target.ring (t.1.registers, t.2) =
            (target.ring (c.registers, m)).rotateLeft (Direction.turn ds) := by
  refine ⟨fun _ => makes_of_loaded, fun _ => confined_of_makes, ?_, ?_⟩
  · intro addrs hne h n x up down back t
    have hup : up.length = n := Shift.chain_length _ _
    have hdown : down.length = n := (Shift.chain_length _ _).trans List.length_reverse
    have hback : back.length = n := (Shift.chain_length _ _).trans List.length_reverse
    refine ⟨fun hmakes => ?_, fun hmakes => ?_, fun hmakes => ?_⟩
    · obtain ⟨w, hafter⟩ := after_of_makes hmakes hup
      simp only [t, hafter]
      exact Shift.chain_doubles h hne (c.registers, m)
    · obtain ⟨w, hafter⟩ := after_of_makes hmakes hdown
      simp only [t, hafter]
      exact Shift.chain_halves h hne (c.registers, m)
    · have hlength : (up ++ back).length = n + n := by rw [List.length_append, hup, hback]
      obtain ⟨w, hafter⟩ := after_of_makes hmakes hlength
      simp only [hafter]
      exact Shift.chain_restores h hne (c.registers, m)
  · intro target ds hmakes t
    obtain ⟨w, hafter⟩ := after_of_makes hmakes (List.length_map _)
    simp only [t, hafter]
    rw [Target.ring, Target.get_pc]
    exact Move.effects_rotate ds target (c.registers, m)

theorem shifts_through_carry_around_top :
    let c : Cpu := ⟨{ Registers.powerOn with a := 0x2A, pc := 0xFFFC, status := .full }, .error⟩
    let cells := (FlatMemory.zeroed.write 0x0200 0x81).write 0x0300 0xC0
    let addrs : List UInt16 := [0x0200, 0x0300]
    let up := (⟨.left, false⟩ : Shift).chain addrs
    let down := (⟨.right, false⟩ : Shift).chain addrs.reverse
    let back := (⟨.right, true⟩ : Shift).chain addrs.reverse
    let turns := [Direction.left, .left, .right].map fun d => (⟨⟨d, true⟩, .accumulator⟩ : Move)
    let start (mvs : List Move) := cells.load 0xFFFC (Move.code mvs)
    let ending (mvs : List Move) := c.after FlatMemory.bus (start mvs) mvs.length
    (ending up).2.number addrs = 0x8102 ∧ (ending up).1.registers.status.has .carry = true ∧
      (ending down).2.number addrs = 0x6040 ∧
        ((ending down).1.registers.status.has .carry).toNat = 1 ∧
          (ending (up ++ back)).2.number addrs = 0xC081 ∧
            Target.accumulator.ring ((ending turns).1.registers, (ending turns).2) = 0x055 ∧
              List.Forall₂ Turn.Confined (c.turns FlatMemory.bus (start up) 2)
                [.cell 0x0200, .cell 0x0300] := by
  intro c cells addrs up down back turns start ending
  have hbytes : addrs.map cells.read = [0x81, 0xC0] := by
    simp [cells, addrs, FlatMemory.read_write]
  have hcells : cells.number addrs = 0xC081 := congrArg littleEndian hbytes
  have hnumber (mvs : List Move) (h : (Move.code mvs).length ≤ 12) :
      (start mvs).number addrs = 0xC081 := by
    have hlow : ∀ k < 12, 0x0200 ≠ 0xFFFC + UInt16.ofNat k := by decide
    have hhigh : ∀ k < 12, 0x0300 ≠ 0xFFFC + UInt16.ofNat k := by decide
    rw [← hcells]
    refine FlatMemory.number_congr fun addr ha => FlatMemory.load_read fun k hk => ?_
    have hk : k < 12 := Nat.lt_of_lt_of_le hk h
    rcases List.mem_pair.mp ha with rfl | rfl
    · exact hlow k hk
    · exact hhigh k hk
  obtain ⟨hloadedUp, hconfined, hchainsUp, -⟩ := shifts_through_carry c (start up)
  obtain ⟨hloadedDown, -, hchainsDown, -⟩ := shifts_through_carry c (start down)
  obtain ⟨hloadedBack, -, hchainsBack, -⟩ := shifts_through_carry c (start (up ++ back))
  obtain ⟨hloadedTurns, -, -, hturns⟩ := shifts_through_carry c (start turns)
  have hne : addrs ≠ [] := List.cons_ne_nil _ _
  have hmakes : c.Makes (start up) up :=
    hloadedUp up (loaded_load rfl (by decide) (by decide))
  obtain ⟨hdoubled, hcarry⟩ := (hchainsUp addrs hne (by decide)).1 hmakes
  obtain ⟨hhalved, hout⟩ := (hchainsDown addrs hne (by decide)).2.1
    (hloadedDown down (loaded_load rfl (by decide) (by decide)))
  have hrestored := (hchainsBack addrs hne (by decide)).2.2
    (hloadedBack (up ++ back) (loaded_load rfl (by decide) (by decide)))
  have hturned := hturns .accumulator [.left, .left, .right]
    (hloadedTurns turns (loaded_load rfl (by decide) (by decide)))
  rw [hnumber up (by decide)] at hdoubled hcarry
  rw [hnumber down (by decide)] at hhalved hout
  rw [hnumber (up ++ back) (by decide)] at hrestored
  exact ⟨hdoubled.trans (by decide), hcarry.mpr (by decide), hhalved, hout, hrestored,
    hturned.trans (by decide +kernel), hconfined up hmakes⟩

end Cpu

end Cpu6502
