import Cpu6502.Proofs.Endings
import Cpu6502.Proofs.ProgramCounter

/-!
Why the interpretation of a program ends. An image leaves the topmost address unmapped, so nothing that is
fetched from one makes the program counter wrap (`Cpu.fetches_within`), and a step that succeeds takes it
forward and to the end at most, unless it jumps or branches (`Cpu.advance_of_step`). A program that runs for
more steps than it has bytes has therefore gone back or stayed where it was in one of them
(`Cpu.exists_retreat`), and one that never does ends (`Cpu.interpret_forward`).
-/

namespace Cpu6502

/-- Whether the instruction goes on elsewhere. A subroutine call does, too, but not from an image,
which takes no return address. -/
def Instruction.transfers (r : Registers) (i : Instruction) : Bool :=
  match i.mnemonic with
  | .jmp | .rts | .rti => true
  | m =>
      match m.condition with
      | some (flag, wanted) => r.status.has flag == wanted
      | none => false

theorem Instruction.nextPc_of_stays {code : UInt8} {i : Instruction} {r : Registers}
    (hd : decode code = some i) (h : i.transfers r = false) (hjsr : i.mnemonic ≠ .jsr)
    (read : UInt16 → UInt8) : i.nextPc read r = r.pc.toNat + i.size := by
  obtain ⟨m, mode⟩ := i
  have hmode := mode_mem_of_decode hd
  cases m with
  | jmp | rts | rti => cases h
  | jsr => exact absurd rfl hjsr
  | bcc | bcs | beq | bne | bmi | bpl | bvc | bvs =>
    obtain rfl : mode = .relative := List.mem_singleton.mp hmode
    exact if_neg (beq_eq_false_iff_ne.mp h)
  | _ => rfl

theorem Opcode.size_pos (o : Opcode) : 0 < o.size := by
  rw [size]
  split
  · rw [Instruction.size]
    omega
  · exact Nat.one_pos

theorem Opcode.take_accesses {o : Opcode} {n : Nat} (h : n ≤ o.size) (read : UInt16 → UInt8)
    (r : Registers) : (o.accesses read r).take n = r.fetched read n := by
  have hlength : n ≤ (r.fetched read o.size).length := by
    simpa [Registers.fetched] using h
  rw [accesses, List.take_append_of_le_length hlength, Registers.fetched, ← List.map_take,
    List.take_range, Nat.min_eq_left h, Registers.fetched]

namespace Image

variable {image : Image} {a : UInt16}

theorem mapped_of_serves {as : List Access} (h : Image.bus.Serves image as) :
    ∀ x ∈ as, image.mapped x.addr = true := by
  intro x hx
  have hread := reads_of_serves h x hx
  have hallows := h.allows (reads_of_serves h) x hx
  cases x with
  | read addr v => exact hallows
  | write addr v => cases hread

theorem toNat_add_of_mapped {n : Nat} (h : ∀ k < n, image.mapped (a + UInt16.ofNat k) = true) :
    (a + UInt16.ofNat n).toNat = a.toNat + n ∧ (n = 0 ∨ a.toNat + n ≤ image.size) := by
  induction n with
  | zero => simp
  | succ n ih =>
    obtain ⟨hlast, -⟩ := ih fun k hk => h k (Nat.lt_succ_of_lt hk)
    have hmapped := h n (Nat.lt_succ_self n)
    have hlt := mapped_iff.mp hmapped
    have hnext : a + UInt16.ofNat (n + 1) = a + UInt16.ofNat n + 1 := by
      rw [UInt16.ofNat_add, UInt16.add_assoc]
      rfl
    rw [hnext, toNat_succ hmapped, hlast]
    omega

end Image

namespace Cpu

variable {c d : Cpu} {image : Image} {k n : Nat} {s : Step}

def Transfers (c : Cpu) (image : Image) : Prop :=
  ∃ i, decode (image.read c.registers.pc) = some i ∧ i.transfers c.registers = true

structure Retreats (c : Cpu) (image : Image) : Prop where
  transfers : c.Transfers image
  succeeds : ∃ s, (c.step Image.bus image).result = .ok s
  backward : (c.step Image.bus image).registers.pc.toNat ≤ c.registers.pc.toNat

theorem fetches_within (c : Cpu) (image : Image) {n : Nat}
    (hsize : n ≤ (Opcode.ofCode (image.read c.registers.pc)).size)
    (hmade : n ≤ (c.step Image.bus image).accesses.length) :
    (c.step Image.bus image).accesses.take n = c.registers.fetched image.read n ∧
      (c.registers.pc + UInt16.ofNat n).toNat = c.registers.pc.toNat + n ∧
        (n = 0 ∨ c.registers.pc.toNat + n ≤ image.size) := by
  have htake : (c.step Image.bus image).accesses.take n = c.registers.fetched image.read n := by
    obtain ⟨rest, hrest⟩ := c.accesses_prefix Image.bus image
    rw [← List.take_append_of_le_length hmade, hrest]
    exact Opcode.take_accesses hsize image.read c.registers
  refine ⟨htake, Image.toNat_add_of_mapped fun k hk => ?_⟩
  have hmem : Access.get image.read (c.registers.pc + UInt16.ofNat k) ∈
      c.registers.fetched image.read n := List.mem_map.mpr ⟨k, List.mem_range.mpr hk, rfl⟩
  rw [← htake] at hmem
  exact Image.mapped_of_serves (c.step_serves Image.bus image) _ (List.mem_of_mem_take hmem)

theorem nextPc_of_stays (h : (c.step Image.bus image).result = .ok s)
    (hstays : ¬ c.Transfers image) :
    let op := Opcode.ofCode (image.read c.registers.pc)
    op.nextPc image.read c.registers = c.registers.pc.toNat + op.size := by
  intro op
  cases hd : decode (image.read c.registers.pc) with
  | none =>
    have hop : op = ⟨image.read c.registers.pc, none⟩ := congrArg (Opcode.mk _) hd
    rw [hop]
    rfl
  | some i =>
    have hop : op = ⟨image.read c.registers.pc, some i⟩ := congrArg (Opcode.mk _) hd
    have hflows : i.transfers c.registers = false :=
      Bool.eq_false_iff.mpr fun ht => hstays ⟨i, hd, ht⟩
    have hjsr : i.mnemonic ≠ .jsr := by
      intro hm
      have hw := not_writes_of_step h hd
      rw [Instruction.writes, hm] at hw
      cases hw
    rw [hop]
    exact Instruction.nextPc_of_stays hd hflows hjsr image.read

theorem advance_of_step (h : (c.step Image.bus image).result = .ok s)
    (hstays : ¬ c.Transfers image) :
    let pc := (c.step Image.bus image).registers.pc
    pc.toNat = c.registers.pc.toNat + (Opcode.ofCode (image.read c.registers.pc)).size ∧
      pc.toNat ≤ image.size := by
  intro pc
  let op := Opcode.ofCode (image.read c.registers.pc)
  change pc.toNat = c.registers.pc.toNat + op.size ∧ pc.toNat ≤ image.size
  have hmade : op.size ≤ (c.step Image.bus image).accesses.length := by
    have hlength := (fetched_of_step h).length_le
    rwa [Registers.fetched, List.length_map, List.length_range] at hlength
  obtain ⟨-, hpast, hwithin⟩ := c.fetches_within image (Nat.le_refl op.size) hmade
  have hpc : (pc.toNat : Int) = (c.registers.pc.toNat + op.size) % 65536 := by
    rw [← nextPc_of_stays h hstays]
    exact pc_of_step h
  have hlt := (c.registers.pc + UInt16.ofNat op.size).toNat_lt
  have hpos := op.size_pos
  rw [hpast] at hlt
  omega

theorem advance_of_not_retreats (h : (c.step Image.bus image).result = .ok s)
    (hforward : ¬ c.Retreats image) :
    c.registers.pc.toNat < (c.step Image.bus image).registers.pc.toNat := by
  by_cases ht : c.Transfers image
  · exact Nat.lt_of_not_le fun hback => hforward ⟨ht, ⟨s, h⟩, hback⟩
  · obtain ⟨hpc, -⟩ := advance_of_step h ht
    have hpos := (Opcode.ofCode (image.read c.registers.pc)).size_pos
    omega

theorem exists_retreat {image' : Image} (h : Reaches Image.bus k c image d image') (hk : 0 < k)
    (hlong : image.size < c.registers.pc.toNat + k) :
    ∃ j e, j < k ∧ Reaches Image.bus j c image e image ∧ e.Retreats image := by
  induction h with
  | refl c image => cases hk
  | @step k c d image e hs rest ih =>
    by_cases hback : c.Retreats image
    · exact ⟨0, c, hk, .refl c image, hback⟩
    · -- what is used up of `k` the program counter has gained, so it is beyond the end as before
      have hforward := advance_of_not_retreats hs hback
      have hstart := Image.mapped_iff.mp (mapped_of_step hs)
      rw [step_image_memory] at ih
      obtain ⟨j, e, hj, hreach, hretreats⟩ := ih (by omega) (by
        change image.size < (c.step Image.bus image).registers.pc.toNat + k
        omega)
      refine ⟨j + 1, e, Nat.succ_lt_succ hj, .step hs ?_, hretreats⟩
      rw [step_image_memory]
      exact hreach

theorem run_retreats (h : (c.run Image.bus image n).ending = .unfinished) (hn : image.size < n) :
    ∃ j e, j < n ∧ Reaches Image.bus j c image e image ∧ e.Retreats image := by
  obtain ⟨d, image', hreach⟩ := reaches_of_unfinished h
  exact exists_retreat hreach (by omega) (by omega)

theorem run_retreats_again (h : ∀ n, (c.run Image.bus image n).ending = .unfinished) (n : Nat) :
    ∃ j e, n ≤ j ∧ j ≤ n + image.size ∧ Reaches Image.bus j c image e image ∧ e.Retreats image := by
  obtain ⟨d, image', hreach⟩ := reaches_of_unfinished (h n)
  obtain rfl := hreach.image_eq
  have hrest : (d.run Image.bus image' (image'.size + 1)).ending = .unfinished :=
    (congrArg Stop.ending (hreach.run_stop _)).symm.trans (h _)
  obtain ⟨j, e, hj, hreach', hretreats⟩ := run_retreats hrest (Nat.lt_succ_self _)
  exact ⟨n + j, e, by omega, by omega, hreach.trans hreach', hretreats⟩

/-- Nothing that is fetched in the course of an interpretation makes the program counter wrap, and a step that
succeeds takes it past an instruction of the program if it does not jump, return or take a branch. So if
those that do all come forward, the interpretation ends within as many steps as the program has bytes and
one; and if it does not end, then again and again one of them goes back or stays. -/
theorem interpret_forward (c : Cpu) {program : Array UInt8} (hsize : program.size ≤ 0xFFFF) :
    let image : Image := ⟨program, hsize⟩
    let start : Cpu := { c with registers := { c.registers with pc := 0 } }
    (∀ k d, Reaches Image.bus k start image d image →
        let o := d.step Image.bus image
        let op := Opcode.ofCode (image.read d.registers.pc)
        let p := d.registers.pc.toNat
        (∀ n, n ≤ op.size → n ≤ o.accesses.length →
            o.accesses.take n = d.registers.fetched image.read n ∧
              (d.registers.pc + UInt16.ofNat n).toNat = p + n ∧ (n = 0 ∨ p + n ≤ program.size)) ∧
          ∀ s, o.result = .ok s → ¬ d.Transfers image →
            p < o.registers.pc.toNat ∧ o.registers.pc.toNat = p + op.size ∧
              o.registers.pc.toNat ≤ program.size) ∧
      ((∀ k d s, Reaches Image.bus k start image d image → d.Transfers image →
          (d.step Image.bus image).result = .ok s →
            d.registers.pc.toNat < (d.step Image.bus image).registers.pc.toNat) →
        ∀ n, program.size < n → (c.interpret program n).ending ≠ .unfinished) ∧
      ((∀ n, (c.interpret program n).ending = .unfinished) →
        ∀ n, ∃ k d, n ≤ k ∧ k ≤ n + program.size ∧ Reaches Image.bus k start image d image ∧
          d.Retreats image) := by
  intro image start
  have hrun (n : Nat) : (c.interpret program n).ending = (start.run Image.bus image n).ending := by
    rw [interpret_of_size hsize]
  simp only [hrun]
  refine ⟨?_, ?_, run_retreats_again⟩
  · intro k d _
    refine ⟨fun n hn hmade => d.fetches_within image hn hmade, fun s hs hstays => ?_⟩
    obtain ⟨hpc, hend⟩ := advance_of_step hs hstays
    have hpos := (Opcode.ofCode (image.read d.registers.pc)).size_pos
    exact ⟨by omega, hpc, hend⟩
  · intro hforward n hn hunfinished
    obtain ⟨k, d, -, hreach, htransfers, ⟨s, hs⟩, hback⟩ := run_retreats hunfinished hn
    exact absurd (hforward k d s hreach htransfers hs) (Nat.not_lt_of_le hback)

def leaping : Image :=
  -- `JMP $0003` in front of a `BRK`
  ⟨#[0x4C, 0x03, 0x00, 0x00], by decide⟩

def circling : Image :=
  -- `JMP $0000`
  ⟨#[0x4C, 0x00, 0x00], by decide⟩

theorem interpret_forward_leaping :
    (∀ n, 4 < n → (powerOn.interpret leaping.bytes n).ending ≠ .unfinished) ∧
      (∀ n, (powerOn.interpret circling.bytes n).ending = .unfinished) ∧
      ∀ n, ∃ k d, n ≤ k ∧ k ≤ n + 3 ∧ Reaches Image.bus k powerOn circling d circling ∧
        d.Retreats circling := by
  have hforward : ∀ k d s, Reaches Image.bus k powerOn leaping d leaping → d.Transfers leaping →
      (d.step Image.bus leaping).result = .ok s →
        d.registers.pc.toNat < (d.step Image.bus leaping).registers.pc.toNat := by
    intro k d s hreach htransfers hs
    cases hreach with
    | refl => decide +kernel
    | step _ rest =>
      cases rest with
      | refl =>
        obtain ⟨i, hd, hi⟩ := htransfers
        cases hd
        cases hi
      | step hproceed _ => cases hproceed
  have hreach (n : Nat) : Reaches Image.bus n powerOn circling powerOn circling := by
    induction n with
    | zero => exact .refl _ _
    | succ n ih => exact .step rfl ih
  have hendless : ∀ n, (powerOn.interpret circling.bytes n).ending = .unfinished := by
    intro n
    rw [interpret_of_size circling.size_le]
    exact congrArg Stop.ending ((hreach n).run_stop 0)
  obtain ⟨-, hends, -⟩ := interpret_forward powerOn leaping.size_le
  obtain ⟨-, -, hretreats⟩ := interpret_forward powerOn circling.size_le
  exact ⟨hends hforward, hendless, hretreats hendless⟩

end Cpu

end Cpu6502
