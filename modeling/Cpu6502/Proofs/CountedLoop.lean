import Mathlib.Logic.Function.Iterate
import Cpu6502.Proofs.Assignment
import Cpu6502.Proofs.Code
import Cpu6502.Proofs.Displacement
import Cpu6502.Proofs.ProgramCounter

/-!
Loops that count down in X. The body is straight-line code that leaves X alone, so a lap takes one from X
and is the last if that leaves nothing (`CountedLoop.reaches_lap`). After `k` laps X is `k` less than it
was loaded with, so there are as many laps as that says, and 256 if it says zero
(`CountedLoop.run_counts`).
-/

namespace Cpu6502

variable {policy : UnknownOpcodes}

theorem FlatMemory.shows_iff_contains {m : FlatMemory} {a : UInt16} {vs : List UInt8} :
    bus.Shows m a vs ↔ m.Contains a vs := by
  induction vs generalizing a with
  | nil => exact ⟨fun _ k hk => absurd hk (Nat.not_lt_zero k), fun _ => trivial⟩
  | cons v vs ih =>
    rw [Bus.Shows, ih, contains_cons]
    exact and_iff_right rfl

theorem Instruction.effect_x {i : Instruction} (h : i.assigns .x = false) (v : UInt8) (r : Registers) :
    (i.mnemonic.action.effect v r).x = r.x := by
  obtain ⟨m, mode⟩ := i
  cases m <;> first | rfl | cases h

theorem Cpu.reaches_bne (policy : UnknownOpcodes) {m : FlatMemory} {p : UInt16} {offset : UInt8}
    (h : m.Contains p [0xD0, offset]) (s : Registers) :
    Cpu.Reaches FlatMemory.bus 1 ⟨{ s with pc := p }, policy⟩ m
      ⟨{ s with pc := if s.status.has .zero then p + (1 + 1) else branchTarget (p + (1 + 1)) offset },
        policy⟩ m := by
  rw [FlatMemory.contains_cons, FlatMemory.contains_cons] at h
  obtain ⟨hbne, hoffset, -⟩ := h
  have hd : decode (m.read p) = some ⟨.bne, .relative⟩ := by
    rw [hbne]
    rfl
  have hpasses := passes_branch (r := { s with pc := p }) policy hd rfl rfl
  refine .single hpasses.result (hpasses.registers.trans ?_) hpasses.memory
  rw [hoffset, UInt16.add_assoc]
  cases s.status.has .zero <;> rfl

namespace Plain

def ldx (v : UInt8) : Plain policy := ⟨0xA2, [v], rfl, List.length_singleton⟩
def dex : Plain policy := ⟨0xCA, [], rfl, List.length_nil⟩

def assigns (l : Plain policy) (reg : Register) : Bool :=
  match (Opcode.ofCode l.code).instruction with
  | some i => i.assigns reg
  | none => false

theorem effect_x {l : Plain policy} (h : l.assigns .x = false) (r : Registers) :
    (l.effect r).x = r.x := by
  rw [assigns] at h
  rw [effect]
  cases hi : (Opcode.ofCode l.code).instruction with
  | none => rfl
  | some i =>
    rw [hi] at h
    exact i.effect_x h _ r

theorem effects_x {ls : List (Plain policy)} (h : ∀ l ∈ ls, l.assigns .x = false) (r : Registers) :
    (effects ls r).x = r.x := by
  induction ls generalizing r with
  | nil => rfl
  | cons l ls ih =>
    obtain ⟨hl, hls⟩ := List.forall_mem_cons.mp h
    rw [effects_cons, ih hls, effect_x hl]

theorem effects_append (ls ks : List (Plain policy)) (r : Registers) :
    effects (ls ++ ks) r = effects ks (effects ls r) := List.foldl_append

end Plain

/-- `LDX` with the count, the body, `DEX`, `BNE` back to the body and `BRK`. -/
structure CountedLoop (policy : UnknownOpcodes) where
  count : UInt8
  body : List (Plain policy)
  keepsX : ∀ l ∈ body, l.assigns .x = false
  -- the branch goes back by 128 bytes at most
  length_le : (Plain.encode body).length ≤ 125

namespace CountedLoop

def laps (loop : CountedLoop policy) : Nat :=
  if loop.count = 0 then 256 else loop.count.toNat

def lap (loop : CountedLoop policy) : List (Plain policy) := loop.body ++ [.dex]

def size (loop : CountedLoop policy) : Nat := (Plain.encode loop.body).length

def offset (loop : CountedLoop policy) : UInt8 := UInt8.ofNat (256 - (loop.size + 3))

def round (loop : CountedLoop policy) : List UInt8 := Plain.encode loop.lap ++ [0xD0, loop.offset]

def code (loop : CountedLoop policy) : List UInt8 :=
  (Plain.ldx loop.count : Plain policy).bytes ++ loop.round ++ [0x00]

def after (loop : CountedLoop policy) (r : Registers) (k : Nat) : Registers :=
  (Plain.effects loop.lap)^[k] ((Plain.ldx loop.count : Plain policy).effect r)

variable (loop : CountedLoop policy) (r : Registers) {k : Nat}

theorem laps_pos : 0 < loop.laps := by
  unfold laps
  split
  · decide
  · rename_i hcount
    exact Nat.pos_of_ne_zero fun h => hcount (UInt8.toNat_inj.mp h)

theorem effects_lap :
    Plain.effects loop.lap r = (Plain.effects loop.body r).loadX (r.x - 1) := by
  rw [lap, Plain.effects_append, ← Plain.effects_x loop.keepsX r]
  rfl

theorem lap_x : (Plain.effects loop.lap r).x = r.x - 1 := by
  rw [effects_lap, Registers.loadX]

theorem lap_zero :
    (Plain.effects loop.lap r).status.has .zero = ((Plain.effects loop.lap r).x == 0) := by
  rw [effects_lap, Registers.loadX, Status.has_withResult, if_pos rfl]

theorem lap_negative :
    (Plain.effects loop.lap r).status.has .negative =
      ((Plain.effects loop.lap r).x &&& 0x80 != 0) := by
  rw [effects_lap, Registers.loadX, Status.has_withResult, if_neg (by decide), if_pos rfl]

theorem after_succ : loop.after r (k + 1) = Plain.effects loop.lap (loop.after r k) :=
  Function.iterate_succ_apply' _ k _

theorem after_x (k : Nat) : (loop.after r k).x = loop.count - UInt8.ofNat k := by
  induction k with
  | zero => exact (UInt8.sub_zero loop.count).symm
  | succ k ih =>
    rw [after_succ, lap_x, ih, UInt8.ofNat_add]
    grind

theorem after_x_eq_zero (hk : k < loop.laps) : (loop.after r (k + 1)).x = 0 ↔ k + 1 = loop.laps := by
  have hcount := loop.count.toNat_lt
  rw [after_x, ← UInt8.toNat_inj, UInt8.toNat_sub, UInt8.toNat_ofNat', UInt8.toNat_zero]
  unfold laps at hk ⊢
  -- if X starts at zero the first lap takes it around, and 255 more bring it back
  split at hk
  · rename_i hzero
    rw [if_pos hzero, hzero, UInt8.toNat_zero]
    omega
  · rename_i hzero
    rw [if_neg hzero]
    omega

theorem length_encode_lap : (Plain.encode loop.lap).length = loop.size + 1 := by
  rw [lap, Plain.encode, List.flatMap_append, List.length_append]
  rfl

theorem signed_offset : signed 1 loop.offset.toNat = -(loop.size + 3 : Int) := by
  have hle : loop.size ≤ 125 := loop.length_le
  have hoffset : loop.offset.toNat = 256 - (loop.size + 3) := by
    rw [offset, UInt8.toNat_ofNat']
    omega
  have hbmod := bmod_of_lt (show 256 - (loop.size + 3) < 256 by omega)
  rw [if_neg (by omega)] at hbmod
  rw [signed, pow_one, hoffset]
  refine hbmod.trans ?_
  omega

theorem branchTarget_offset (w : UInt16) :
    branchTarget (w + UInt16.ofNat (loop.size + 3)) loop.offset = w := by
  have hw := w.toNat_lt
  have htarget := toNat_branchTarget (w + UInt16.ofNat (loop.size + 3)) loop.offset
  rw [signed_offset, toNat_add_ofNat] at htarget
  apply UInt16.toNat_inj.mp
  omega

variable {loop r} {m : FlatMemory} {w : UInt16}

theorem reaches_lap (h : m.Contains w loop.round) (s : Registers) :
    Cpu.Reaches FlatMemory.bus (loop.body.length + 2) ⟨{ s with pc := w }, policy⟩ m
      ⟨{ Plain.effects loop.lap s with
        pc := if (Plain.effects loop.lap s).x = 0 then w + UInt16.ofNat (loop.size + 3) else w },
        policy⟩ m := by
  have hlength : loop.body.length + 2 = loop.lap.length + 1 := by
    rw [lap, List.length_append]
    rfl
  have hbehind : w + UInt16.ofNat (loop.size + 1) + (1 + 1) = w + UInt16.ofNat (loop.size + 3) := by
    rw [UInt16.add_assoc]
    exact congrArg (w + ·) (UInt16.ofNat_add (loop.size + 1) 2).symm
  rw [round, FlatMemory.contains_append, ← FlatMemory.shows_iff_contains, length_encode_lap] at h
  obtain ⟨hlap, hbranch⟩ := h
  have hreach := Plain.reaches_encode (r := { s with pc := w }) hlap
  rw [Plain.effects_pc, length_encode_lap] at hreach
  have hback := Cpu.reaches_bne policy hbranch (Plain.effects loop.lap s)
  rw [hbehind, branchTarget_offset, lap_zero] at hback
  simp only [beq_iff_eq] at hback
  rw [hlength]
  exact hreach.trans hback

theorem reaches_laps (h : m.Contains w loop.round) (hk : k ≤ loop.laps) :
    Cpu.Reaches FlatMemory.bus (k * (loop.body.length + 2)) ⟨{ loop.after r 0 with pc := w }, policy⟩ m
      ⟨{ loop.after r k with
        pc := if k = loop.laps then w + UInt16.ofNat (loop.size + 3) else w }, policy⟩ m := by
  induction k with
  | zero =>
    rw [if_neg loop.laps_pos.ne, Nat.zero_mul]
    exact .refl _ _
  | succ k ih =>
    -- lap `k` was not the last, so it has come back
    have hfirst := ih (Nat.le_of_lt hk)
    rw [if_neg (Nat.ne_of_lt hk)] at hfirst
    have hlap := reaches_lap h (loop.after r k)
    simp only [← after_succ, loop.after_x_eq_zero r hk] at hlap
    rw [Nat.succ_mul]
    exact hfirst.trans hlap

theorem reaches_exit (h : m.Contains r.pc loop.code) :
    let w := r.pc + UInt16.ofNat (loop.size + 5)
    Cpu.Reaches FlatMemory.bus (1 + loop.laps * (loop.body.length + 2)) ⟨r, policy⟩ m
        ⟨{ loop.after r loop.laps with pc := w }, policy⟩ m ∧ m.read w = 0 := by
  intro w
  have hldx : (Plain.ldx loop.count : Plain policy).bytes.length = 2 := rfl
  have hround : loop.round.length = loop.size + 3 := by
    rw [round, List.length_append, length_encode_lap]
    rfl
  have hend : r.pc + UInt16.ofNat 2 + UInt16.ofNat (loop.size + 3) = w := by
    rw [UInt16.add_assoc, ← UInt16.ofNat_add, Nat.add_left_comm]
  rw [code, FlatMemory.contains_append, FlatMemory.contains_append, List.length_append, hround, hldx,
    UInt16.ofNat_add, ← UInt16.add_assoc, hend] at h
  obtain ⟨⟨hload, hlaps⟩, hbrk⟩ := h
  obtain ⟨hresult, hmemory, hregisters⟩ :=
    Plain.step_shown (r := r) (FlatMemory.shows_iff_contains.mpr hload)
  have hreach := reaches_laps (r := r) hlaps (Nat.le_refl _)
  rw [if_pos rfl, hend] at hreach
  refine ⟨?_, (FlatMemory.contains_cons.mp hbrk).1⟩
  exact (Cpu.Reaches.single hresult hregisters hmemory).trans hreach

/-- The loop halts after two steps and as many laps as its count says, no step sooner, with memory as it was
and the registers as the laps leave them, X zero among them. -/
theorem run_counts (loop : CountedLoop policy) (r : Registers) {m : FlatMemory}
    (h : m.Contains r.pc loop.code) :
    let c : Cpu := ⟨r, policy⟩
    let steps := 2 + loop.laps * (loop.body.length + 2)
    let last := loop.after r loop.laps
    (∀ n < steps, (c.run FlatMemory.bus m n).ending = .unfinished) ∧
      (∀ n, steps ≤ n → (c.run FlatMemory.bus m n).stop =
        ⟨.halted, { last with pc := r.pc + UInt16.ofNat (loop.size + 6) }, m⟩) ∧
      last.x = 0 ∧ last.status.has .zero = true ∧ last.status.has .negative = false := by
  intro c steps last
  obtain ⟨hreach, hbrk⟩ := reaches_exit h
  have hhalt := Cpu.passes_halt policy
    (r := { last with pc := r.pc + UInt16.ofNat (loop.size + 5) }) hbrk
  have hpc : r.pc + UInt16.ofNat (loop.size + 5) + 1 = r.pc + UInt16.ofNat (loop.size + 6) := by
    rw [UInt16.add_assoc]
    exact congrArg (r.pc + ·) (UInt16.ofNat_add (loop.size + 5) 1).symm
  refine ⟨fun n hn => ?_, fun n hn => ?_, ?_⟩
  · exact hreach.run_unfinished (by omega)
  · have hstop := hreach.run_eq_stop (n := n) (by rw [hhalt.result]; exact nofun) (by omega)
    rw [hstop, Outcome.stop, hhalt.result, hhalt.registers, hhalt.memory, hpc]
    rfl
  · obtain ⟨k, hk⟩ := Nat.exists_eq_succ_of_ne_zero loop.laps_pos.ne'
    have hx : (loop.after r (k + 1)).x = 0 := (loop.after_x_eq_zero r (by omega)).mpr hk.symm
    have hlast : last = Plain.effects loop.lap (loop.after r k) :=
      (congrArg (loop.after r) hk).trans (loop.after_succ r)
    rw [after_succ] at hx
    rw [hlast, lap_zero, lap_negative, hx]
    exact ⟨rfl, rfl, rfl⟩

def spinning (count : UInt8) : CountedLoop .error where
  -- `ADC #$03` and `INY`
  count := count
  body := [⟨0x69, [0x03], rfl, rfl⟩, ⟨0xC8, [], rfl, List.length_nil⟩]
  keepsX := by decide
  length_le := by decide

example : (spinning 2).code = [0xA2, 0x02, 0x69, 0x03, 0xC8, 0xCA, 0xD0, 0xFA, 0x00] := by decide

theorem run_counts_spinning :
    let r : Registers := ⟨0x10, 7, 5, .powerOn, 0xFF, 0xFFFC⟩
    let c : Cpu := ⟨r, .error⟩
    let m (count : UInt8) := FlatMemory.zeroed.load 0xFFFC (spinning count).code
    (c.run FlatMemory.bus (m 2) 10).stop =
        ⟨.halted, ⟨0x16, 0, 7, ⟨0x26⟩, 0xFF, 0x0005⟩, m 2⟩ ∧
      (c.run FlatMemory.bus (m 0) 1025).ending = .unfinished ∧
        (c.run FlatMemory.bus (m 0) 1026).stop =
          ⟨.halted, { (spinning 0).after r 256 with pc := 0x0005 }, m 0⟩ := by
  intro r c m
  have htwo : (m 2).Contains r.pc (spinning 2).code := FlatMemory.contains_load (by decide)
  have hzero : (m 0).Contains r.pc (spinning 0).code := FlatMemory.contains_load (by decide)
  obtain ⟨-, hfew, -⟩ := run_counts (spinning 2) r htwo
  obtain ⟨hbefore, hmany, -⟩ := run_counts (spinning 0) r hzero
  have hlast : (spinning 2).after r (spinning 2).laps = ⟨0x16, 0, 7, ⟨0x26⟩, 0xFF, 0xFFFC⟩ := by
    decide +kernel
  have hpc (count : UInt8) : r.pc + UInt16.ofNat ((spinning count).size + 6) = 5 := by
    change (0xFFFC : UInt16) + UInt16.ofNat 9 = 5
    decide
  have hlaps : (spinning 0).laps = 256 := rfl
  refine ⟨?_, hbefore 1025 (by decide), ?_⟩
  · rw [hfew 10 (by decide), hlast, hpc]
  · rw [hmany 1026 (by decide), hlaps, hpc]

end CountedLoop

end Cpu6502
