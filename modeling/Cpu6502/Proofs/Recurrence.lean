import Mathlib.Data.FinEnum
import Mathlib.Data.Fintype.Pigeonhole
import Cpu6502.Proofs.Code
import Cpu6502.Proofs.Endings

/-!
Runs without an end. There are finitely many register files, so a run that never ends meets one of them
twice (`Cpu.recurs_of_endless`). On an image, which stays as it is, the registers are all that a step
depends on: what has come back once comes back for ever, and the run has no end
(`Cpu.interpret_endless_iff`). Where a program can write over itself that is not so
(`Cpu.recurs_and_ends`).
-/

namespace Cpu6502

variable {β : Type}

instance : Finite Registers := by
  let file (r : Registers) := (r.a, r.x, r.y, r.status.bits, r.sp, r.pc)
  refine Finite.of_injective file ?_
  rintro ⟨a, x, y, ⟨p⟩, sp, pc⟩ ⟨a', x', y', ⟨p'⟩, sp', pc'⟩ h
  simp only [file, Prod.mk.injEq] at h
  obtain ⟨rfl, rfl, rfl, rfl, rfl, rfl⟩ := h
  rfl

namespace Cpu

variable {c d : Cpu} {bus : Bus β} {b e : β} {i k n : Nat}

def Endless (c : Cpu) (bus : Bus β) (b : β) : Prop := ∀ n, (c.run bus b n).ending = .unfinished

def Recurs (c : Cpu) (bus : Bus β) (b : β) : Prop :=
  ∃ i j, i < j ∧ (∀ t ∈ c.turns bus b j, t.Proceeds) ∧
    (c.after bus b i).1.registers = (c.after bus b j).1.registers

theorem endless_iff : c.Endless bus b ↔ ∀ n, ∀ t ∈ c.turns bus b n, t.Proceeds := by
  have hends : ¬ c.Endless bus b ↔ ∃ s, c.Ends bus b s := by
    simp only [Endless, not_forall]
    constructor
    · rintro ⟨n, hn⟩
      exact ⟨_, hn, n, rfl⟩
    · rintro ⟨s, hs, n, rfl⟩
      exact ⟨n, hs⟩
  rw [← not_iff_not, hends, ends_iff_exists_stop]
  simp

theorem after_add (c : Cpu) (bus : Bus β) (b : β) (j k : Nat) :
    c.after bus b (j + k) = (c.after bus b j).1.after bus (c.after bus b j).2 k := by
  induction j generalizing c b with
  | zero => rw [Nat.zero_add]; rfl
  | succ j ih =>
    rw [Nat.add_right_comm]
    exact ih _ _

theorem recurs_of_endless (h : c.Endless bus b) : c.Recurs bus b := by
  -- there are only finitely many register files
  obtain ⟨i, j, hne, heq⟩ := Finite.exists_ne_map_eq_of_infinite fun n =>
    (c.after bus b n).1.registers
  rw [endless_iff] at h
  rcases Nat.lt_or_gt_of_ne hne with hlt | hgt
  · exact ⟨i, j, hlt, h j, heq⟩
  · exact ⟨j, i, hgt, h i, heq.symm⟩

theorem Reaches.again (h : Reaches bus k d e d e) (n : Nat) : Reaches bus (n * k) d e d e := by
  induction n with
  | zero =>
    rw [Nat.zero_mul]
    exact .refl d e
  | succ n ih =>
    rw [Nat.succ_mul]
    exact ih.trans h

theorem Reaches.endless (h : Reaches bus i c b d e) (hloop : Reaches bus k d e d e) (hk : 0 < k) :
    c.Endless bus b := by
  rw [endless_iff]
  intro n t ht
  have hlong : n ≤ i + n * k := by
    have := Nat.le_mul_of_pos_right n hk
    omega
  have hall := (h.trans (hloop.again n)).turns_proceed.1
  exact hall t ((c.turns_prefix bus b hlong).subset ht)

theorem after_image (c : Cpu) (image : Image) (k : Nat) : (c.after Image.bus image k).2 = image := by
  induction k generalizing c with
  | zero => rfl
  | succ k ih =>
    rw [after, step_image_memory]
    exact ih _

theorem Reaches.loop {image : Image} {f : Cpu} (h : Reaches Image.bus k d image f image)
    (heq : d.registers = f.registers) : Reaches Image.bus k d image d image := by
  obtain ⟨r, policy⟩ := d
  obtain ⟨s, policy'⟩ := f
  obtain rfl : policy' = policy := h.policy_eq
  obtain rfl : r = s := heq
  exact h

theorem endless_of_recurs {image : Image} (h : c.Recurs Image.bus image) :
    c.Endless Image.bus image := by
  obtain ⟨i, j, hij, hall, heq⟩ := h
  obtain ⟨k, rfl⟩ := Nat.exists_eq_add_of_le hij.le
  rw [turns_add] at hall
  have hreach := reaches_after fun t ht => hall t (List.mem_append_left _ ht)
  have hloop := reaches_after fun t ht => hall t (List.mem_append_right _ ht)
  rw [← after_add] at hloop
  -- the image never changes, so it is enough that the registers come back
  rw [after_image] at hreach hloop
  rw [after_image] at hloop
  exact hreach.endless (hloop.loop heq) (by omega)

def selfHalting : List UInt8 := (Line.sta 0).bytes ++ (Line.jmp 0).bytes

theorem recurs_and_ends {m : FlatMemory} (h : m.Contains 0 selfHalting) :
    powerOn.Recurs FlatMemory.bus m ∧ ¬ powerOn.Endless FlatMemory.bus m := by
  obtain ⟨hsta, hjmp⟩ := FlatMemory.contains_append.mp h
  have hzero : (powerOn.registers.past 3).a = 0 := rfl
  have hstore := Line.reaches_store (c := powerOn) hsta rfl rfl rfl
  rw [hzero] at hstore
  have hjump : Reaches FlatMemory.bus 1 { powerOn with registers := powerOn.registers.past 3 }
      (m.write 0 0) powerOn (m.write 0 0) :=
    Line.reaches_jump (hjmp.write (by decide) 0)
  have hround := hstore.trans hjump
  obtain ⟨hproceed, hafter⟩ := hround.turns_proceed
  constructor
  · refine ⟨0, 2, Nat.two_pos, hproceed, ?_⟩
    rw [hafter, after]
  · intro hendless
    have hread : (m.write 0 0).read 0 = 0 := by rw [FlatMemory.read_write, if_pos rfl]
    have hhalt : (powerOn.step FlatMemory.bus (m.write 0 0)).result = .ok .halt :=
      step_halt_iff.mpr ⟨rfl, hread⟩
    have hhalted := (hround.run_halted hhalt (Nat.lt_succ_self _)).1
    rw [hendless] at hhalted
    cases hhalted

/-- The interpretation of a program has no end if and only if some register file comes back in the course
of it, since the program is what it was after every step. In memory that can be written, one may come back
though the run ends. -/
theorem interpret_endless_iff (c : Cpu) {program : Array UInt8} (hsize : program.size ≤ 0xFFFF) :
    let image : Image := ⟨program, hsize⟩
    let start : Cpu := { c with registers := { c.registers with pc := 0 } }
    ((∀ n, (c.interpret program n).ending = .unfinished) ↔ start.Recurs Image.bus image) ∧
      (∀ k, (start.after Image.bus image k).2 = image) ∧
      ∃ (d : Cpu) (m : FlatMemory), d.Recurs FlatMemory.bus m ∧ ¬ d.Endless FlatMemory.bus m := by
  intro image start
  have hrun (n : Nat) : (c.interpret program n).ending = (start.run Image.bus image n).ending := by
    rw [interpret_of_size hsize]
  simp only [hrun]
  have hself : (FlatMemory.zeroed.load 0 selfHalting).Contains 0 selfHalting :=
    FlatMemory.contains_load (by decide)
  exact ⟨⟨recurs_of_endless, endless_of_recurs⟩, start.after_image image, _, _,
    recurs_and_ends hself⟩

def idleLoop : Image :=
  -- `NOP` and `JMP $0000`
  ⟨#[0xEA, 0x4C, 0x00, 0x00], by decide⟩

theorem interpret_endless_iff_idle :
    (∀ n, (powerOn.interpret idleLoop.bytes n).ending = .unfinished) ∧
      ¬ powerOn.Recurs Image.bus ⟨#[0x00], by decide⟩ := by
  have hrecurs : powerOn.Recurs Image.bus idleLoop := by
    refine ⟨0, 2, Nat.two_pos, ?_, by decide +kernel⟩
    simp only [turns, List.mem_cons, List.not_mem_nil, or_false, forall_eq_or_imp, forall_eq]
    exact ⟨rfl, rfl⟩
  have hsize : (#[0x00] : Array UInt8).size ≤ 0xFFFF := by decide
  obtain ⟨hloop, -⟩ := interpret_endless_iff powerOn idleLoop.size_le
  obtain ⟨hbreak, -⟩ := interpret_endless_iff powerOn hsize
  refine ⟨hloop.mpr hrecurs, fun h => ?_⟩
  have hhalted : (powerOn.interpret #[0x00] 1).ending = .halted := by decide +kernel
  cases (hbreak.mpr h 1).symm.trans hhalted

end Cpu

end Cpu6502
