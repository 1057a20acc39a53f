import Cpu6502.FlatMemory
import Cpu6502.Proofs.Turn

/-!
A program image against memory that starts with the same bytes. What succeeds on the image has read
below its end and written nothing, so it goes the same way in memory and leaves it alone
(`Microcode.exec_image`). Hence interpreting a program and running it from address zero
come to the same (`Cpu.interpret_agrees`).
-/

namespace Cpu6502

variable {α β γ : Type}

def Outcome.on (o : Outcome α β) (b : γ) : Outcome α γ :=
  ⟨o.result, o.registers, b, o.accesses, o.messages⟩

def Turn.on (t : Turn β) (b : γ) : Turn γ := ⟨t.before, b, t.outcome.on b⟩

def Run.on (s : Run β) (b : γ) : Run γ := ⟨s.ending, s.registers, b, s.accesses, s.messages⟩

def Image.StartOf (image : Image) (m : FlatMemory) : Prop :=
  ∀ i (h : i < image.size), m.read (UInt16.ofNat i) = image.bytes[i]

theorem Image.StartOf.read_eq {image : Image} {m : FlatMemory} (h : image.StartOf m) {a : UInt16}
    (ha : image.mapped a = true) : m.read a = image.read a := by
  have hlt : a.toNat < image.size := by simpa [mapped] using ha
  have hr := h a.toNat hlt
  rw [UInt16.ofNat_toNat] at hr
  rw [hr, read, Array.getElem?_eq_getElem hlt, Option.getD_some]

theorem Image.foldl_served (image : Image) (as : List Access) :
    as.foldl Image.bus.served image = image := by
  induction as with
  | nil => rfl
  | cons a as ih =>
    cases a with
    | read addr v => exact ih
    | write addr v => exact ih

variable {image : Image} {m : FlatMemory}

theorem Microcode.exec_image {t : Microcode α} {a : α} (hm : image.StartOf m)
    (h : (t.exec Image.bus image).result = .ok a) :
    t.exec FlatMemory.bus m = (t.exec Image.bus image).on m := by
  induction t with
  | done r v => rfl
  | fail r e => cases h
  | read r addr next ih =>
    simp only [exec] at h ⊢
    split at h
    · rename_i ha
      have hr : FlatMemory.bus.read m addr = Image.bus.read image addr := hm.read_eq ha
      rw [if_pos ha, hr]
      exact congrArg (Outcome.after _) (ih _ h)
    · cases h
  | write r addr v next ih => cases h
  | note msg next ih => exact congrArg (Outcome.noting [msg]) (ih h)

namespace Cpu

variable {c : Cpu}

theorem step_image_memory (c : Cpu) (image : Image) :
    (c.step Image.bus image).memory = image := by
  rw [step_memory, Image.foldl_served]

theorem step_image {s : Step} (hm : image.StartOf m)
    (h : (c.step Image.bus image).result = .ok s) :
    c.step FlatMemory.bus m = (c.step Image.bus image).on m :=
  Microcode.exec_image hm h

theorem turns_image {n : Nat} (hm : image.StartOf m)
    (h : ∀ t ∈ c.turns Image.bus image n, t.Succeeds) :
    c.turns FlatMemory.bus m n = (c.turns Image.bus image n).map (·.on m) := by
  induction n generalizing c with
  | zero => rfl
  | succ n ih =>
    obtain ⟨⟨s, hs⟩, ht⟩ := List.forall_mem_cons.mp h
    rw [step_image_memory] at ht
    rw [turns, turns, List.map_cons, step_image_memory, step_image hm hs]
    exact congrArg (_ :: ·) (ih ht)

theorem runFrom_image {policy : UnknownOpcodes} {n : Nat} {r : Registers} {as : Array Access}
    {ms : Array Message} (hm : image.StartOf m)
    (h : (runFrom policy Image.bus n r image as ms).ending = .halted) :
    runFrom policy FlatMemory.bus n r m as ms =
      (runFrom policy Image.bus n r image as ms).on m := by
  induction n generalizing r as ms with
  | zero => cases h
  | succ n ih =>
    have hmem := step_image_memory ⟨r, policy⟩ image
    have hstep := fun s => step_image (c := ⟨r, policy⟩) (s := s) hm
    rw [runFrom] at h ⊢
    rw [runFrom]
    generalize step ⟨r, policy⟩ Image.bus image = o at h hmem hstep ⊢
    obtain ⟨result, r, b, as', ms'⟩ := o
    obtain rfl : b = image := hmem
    cases result with
    | error f => cases h
    | ok s =>
      rw [hstep s rfl]
      cases s with
      | proceed => exact ih h
      | halt => rfl

/-- For as long as steps succeed on the image they are the steps on memory that starts with its
bytes, and memory stays as it is. So a program that halts when it is interpreted halts with the same
registers when it is run. -/
theorem interpret_agrees (c : Cpu) {program : Array UInt8} (hsize : program.size ≤ 0xFFFF)
    {m : FlatMemory} (hm : ∀ i (h : i < program.size), m.read (UInt16.ofNat i) = program[i]) :
    let start : Cpu := { c with registers := { c.registers with pc := 0 } }
    let image : Image := ⟨program, hsize⟩
    (∀ k, (∀ t ∈ start.turns Image.bus image k, t.Succeeds) →
        start.turns FlatMemory.bus m k = (start.turns Image.bus image k).map (·.on m)) ∧
      ∀ n, (c.interpret program n).ending = .halted →
        let s := start.run FlatMemory.bus m n
        s.ending = .halted ∧ s.registers = (c.interpret program n).registers ∧ s.memory = m := by
  intro start image
  refine ⟨fun k h => turns_image hm h, fun n h => ?_⟩
  have himage : Image.ofBytes program = .ok image := dif_pos hsize
  rw [interpret, himage] at h ⊢
  have hrun : start.run FlatMemory.bus m n = (start.run Image.bus image n).on m :=
    runFrom_image hm h
  rw [hrun]
  exact ⟨h, rfl, rfl⟩

theorem interpret_agrees_loaded :
    let c : Cpu := { registers := { Registers.powerOn with pc := 0x1234 } }
    let program : Array UInt8 := #[0xA9, 0x05, 0x00]
    let m := (FlatMemory.zeroed.write 0x8000 0xFF).load 0 program.toList
    let start : Cpu := { c with registers := { c.registers with pc := 0 } }
    (∀ i (h : i < program.size), m.read (UInt16.ofNat i) = program[i]) ∧
      (c.interpret program 2).ending = .halted ∧
      (start.run FlatMemory.bus m 2).ending = .halted ∧
      (start.run FlatMemory.bus m 2).registers =
        { Registers.powerOn with a := 5, pc := 3 } ∧
      (start.run FlatMemory.bus m 2).memory = m := by
  intro c program m start
  have hm : ∀ i (h : i < program.size), m.read (UInt16.ofNat i) = program[i] := by
    intro i h
    have hi : i = 0 ∨ i = 1 ∨ i = 2 := by
      have hlt : i < 3 := h
      omega
    rcases hi with rfl | rfl | rfl <;> simp [m, program, FlatMemory.load, FlatMemory.read_write]
  have hhalt : (c.interpret program 2).ending = .halted := by decide +kernel
  have hregs : (c.interpret program 2).registers =
      { Registers.powerOn with a := 5, pc := 3 } := by decide +kernel
  obtain ⟨hending, hregisters, hmemory⟩ := (interpret_agrees c (by decide) hm).2 2 hhalt
  exact ⟨hm, hhalt, hending, hregisters.trans hregs, hmemory⟩

end Cpu

end Cpu6502
