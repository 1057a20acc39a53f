import Mathlib.Logic.ExistsUnique
import Cpu6502.Proofs.Faults
import Cpu6502.Proofs.Interpretation

/-!
How the interpretation of a program ends. The bus of an image refuses every write and every read from
its end on, so the access that ends an interpretation tells which of the two was tried, and nothing is
written before (`Cpu.interpret_exits`). Otherwise it ends behind a byte of the image: one that halts, or one
that encodes no instruction.
-/

namespace Cpu6502

variable {β : Type}

def Instruction.writes (i : Instruction) : Bool :=
  match i.mnemonic with
  | .sta | .stx | .sty | .inc | .dec | .pha | .php | .jsr => true
  | .asl | .lsr | .rol | .ror => i.mode != .accumulator
  | _ => false

theorem Instruction.writes_iff {code : UInt8} {i : Instruction} (hd : decode code = some i) :
    i.writes = true ↔ .store ∈ i.phases ∨ .push ∈ i.phases := by
  apply of_decode hd
  intro m
  cases m <;> decide

theorem Opcode.phases_write_iff (code : UInt8) :
    (∃ p ∈ (ofCode code).phases, (p == .store || p == .push) = true) ↔
      ∃ i, decode code = some i ∧ i.writes = true := by
  have hphases : (ofCode code).phases = .fetch :: ((decode code).map Instruction.phases).getD [] := rfl
  rw [hphases]
  cases hd : decode code with
  | none => simp
  | some i => simp [Instruction.writes_iff hd, and_or_left, exists_or]

namespace Image

theorem reads_of_serves {image : Image} {as : List Access} (h : Image.bus.Serves image as) :
    ∀ x ∈ as, x.isWrite = false := by
  induction as with
  | nil => simp
  | cons x as ih =>
    obtain ⟨hallowed, -, hrest⟩ := h
    cases x with
    | read addr v => exact List.forall_mem_cons.mpr ⟨rfl, ih hrest⟩
    | write addr v => cases hallowed

end Image

namespace Cpu

variable {c : Cpu} {bus : Bus β} {b : β}

def refused (c : Cpu) (bus : Bus β) (b : β) : Option Access :=
  (c.step bus.unrestricted b).accesses[(c.step bus b).accesses.length]?

theorem schedule_writes_iff :
    (∃ m ∈ c.schedule bus b, m.access.isWrite = true) ↔
      ∃ i, decode (bus.read b c.registers.pc) = some i ∧ i.writes = true := by
  rw [← Opcode.phases_write_iff, ← c.schedule_phases bus b]
  have hwrite := (c.schedule_paced bus b).isWrite_eq
  constructor
  · intro h
    obtain ⟨m, hm, hw⟩ := h
    exact ⟨m.phase, List.mem_map_of_mem hm, (hwrite m hm).symm.trans hw⟩
  · intro h
    obtain ⟨p, hp, hw⟩ := h
    obtain ⟨m, hm, rfl⟩ := List.mem_map.mp hp
    exact ⟨m, hm, (hwrite m hm).trans hw⟩

theorem unrestricted_ne_outOfBounds (c : Cpu) (bus : Bus β) (b : β) (addr : UInt16) :
    (c.step bus.unrestricted b).result ≠ .error (.outOfBounds addr) := by
  cases hd : decode (bus.read b c.registers.pc) with
  | some i =>
    rw [(step_documented hd).1]
    exact nofun
  | none =>
    rw [(step_undocumented hd).2]
    cases c.policy <;> exact nofun

theorem refused_of_outOfBounds {addr : UInt16}
    (h : (c.step bus b).result = .error (.outOfBounds addr)) :
    ∃ m ∈ c.schedule bus b, c.refused bus b = some m.access ∧ m.access.addr = addr ∧
      bus.allows (c.step bus b).memory m.access = false := by
  rcases c.step_cut bus b with hfree | ⟨a, rest, hnext, hresult, hallows⟩
  · rw [hfree] at h
    exact absurd h (c.unrestricted_ne_outOfBounds bus b addr)
  · have hrefused : c.refused bus b = some a := by simp [refused, hnext]
    have ha : a ∈ (c.schedule bus b).map (·.access) := by
      rw [← step_accesses, hnext]
      simp
    obtain ⟨m, hm, rfl⟩ := List.mem_map.mp ha
    rw [hresult] at h
    cases h
    exact ⟨m, hm, hrefused, rfl, hallows⟩

variable {d : Cpu} {image : Image} {k n : Nat}

theorem step_image_reads (c : Cpu) (image : Image) :
    ∀ a ∈ (c.step Image.bus image).accesses, a.isWrite = false :=
  Image.reads_of_serves (c.step_serves Image.bus image)

theorem run_image_reads (c : Cpu) (image : Image) (n : Nat) :
    ∀ a ∈ (c.run Image.bus image n).accesses, a.isWrite = false := by
  intro a ha
  exact Image.reads_of_serves (c.run_serves Image.bus image n) a (Array.mem_toList_iff.mpr ha)

theorem Reaches.image_eq {image' : Image} (h : Reaches Image.bus k c image d image') :
    image' = image := by
  induction h with
  | refl c image => rfl
  | step _ _ ih => rw [ih, step_image_memory]

theorem not_writes_of_step {s : Step} {i : Instruction}
    (h : (c.step Image.bus image).result = .ok s)
    (hd : decode (image.read c.registers.pc) = some i) : i.writes = false := by
  have hd : decode (Image.bus.read image c.registers.pc) = some i := hd
  cases hw : i.writes with
  | false => rfl
  | true =>
    obtain ⟨m, hm, hwrite⟩ := schedule_writes_iff.mpr ⟨i, hd, hw⟩
    have hread : m.access.isWrite = false := by
      refine c.step_image_reads image m.access ?_
      rw [accesses_of_step h]
      exact List.mem_map_of_mem hm
    rw [hread] at hwrite
    cases hwrite

end Cpu

inductive Exit where
  | halt
  | read (addr : UInt16)
  | write (addr : UInt16)
  | unknown (code : UInt8)

namespace Exit

def ending : Exit → Ending
  | .halt => .halted
  | .read addr | .write addr => .faulted (.outOfBounds addr)
  | .unknown code => .faulted (.unimplementedOpcode code)

def Behind (image : Image) (r : Registers) (code : UInt8) : Prop :=
  1 ≤ r.pc.toNat ∧ r.pc.toNat ≤ image.size ∧ image.bytes[r.pc.toNat - 1]? = some code

/-- A step of `d` on the image leaves the registers `r` and ends so. -/
def Explains (image : Image) (d : Cpu) (r : Registers) : Exit → Prop
  | .halt => Behind image r 0
  | .read addr => image.size ≤ addr.toNat ∧ ∃ v, d.refused Image.bus image = some (.read addr v)
  | .write addr => ∃ v, d.refused Image.bus image = some (.write addr v) ∧
      ∃ i, decode (image.read d.registers.pc) = some i ∧ i.writes = true
  | .unknown code => d.policy = .error ∧ decode code = none ∧ Behind image r code

variable {image : Image} {d : Cpu} {r : Registers}

theorem behind_of_past {code : UInt8} (hm : image.mapped d.registers.pc = true)
    (hc : image.read d.registers.pc = code)
    (hr : r = { d.registers with pc := d.registers.pc + 1 }) : Behind image r code := by
  have hpc : r.pc.toNat = d.registers.pc.toNat + 1 := by rw [hr, Image.toNat_succ hm]
  have hlt := Image.mapped_iff.mp hm
  refine ⟨by omega, by omega, ?_⟩
  rw [hpc, Nat.add_sub_cancel, Image.getElem?_of_mapped hm, hc]

theorem not_read_and_write {addr addr' : UInt16} (hr : (read addr).Explains image d r) :
    ¬ (write addr').Explains image d r := by
  intro hw
  obtain ⟨-, v, hread⟩ := hr
  obtain ⟨w, hwrite, -⟩ := hw
  rw [hread] at hwrite
  cases hwrite

theorem eq_of_explains {x y : Exit} (hx : x.Explains image d r) (hy : y.Explains image d r)
    (h : x.ending = y.ending) : x = y := by
  cases x with
  | halt => cases y <;> first | rfl | cases h
  | unknown code => cases y <;> cases h; rfl
  | read addr =>
    cases y with
    | read => cases h; rfl
    | write => exact absurd hy (not_read_and_write hx)
    | halt | unknown => cases h
  | write addr =>
    cases y with
    | write => cases h; rfl
    | read => exact absurd hx (not_read_and_write hy)
    | halt | unknown => cases h

theorem exists_explains_refusal {addr : UInt16}
    (h : (d.step Image.bus image).result = .error (.outOfBounds addr)) :
    ∃ x : Exit, x.ending = .faulted (.outOfBounds addr) ∧ x.Explains image d r := by
  obtain ⟨⟨phase, regs, access⟩, hm, hrefused, rfl, hallows⟩ := Cpu.refused_of_outOfBounds h
  rw [Cpu.step_image_memory] at hallows
  cases access with
  | read addr v =>
    have hpast : ¬ addr.toNat < image.size := by
      rw [← Image.mapped_iff]
      exact Bool.eq_false_iff.mp hallows
    exact ⟨.read addr, rfl, Nat.le_of_not_lt hpast, v, hrefused⟩
  | write addr v =>
    exact ⟨.write addr, rfl, v, hrefused, Cpu.schedule_writes_iff.mp ⟨_, hm, rfl⟩⟩

theorem exists_explains (h : (d.step Image.bus image).result ≠ .ok .proceed) :
    ∃ x : Exit, x.ending = .ofResult (d.step Image.bus image).result ∧
      x.Explains image d (d.step Image.bus image).registers := by
  cases hresult : (d.step Image.bus image).result with
  | ok s =>
    cases s with
    | proceed => exact absurd hresult h
    | halt =>
      obtain ⟨hm, hz⟩ := Cpu.step_halt_iff.mp hresult
      exact ⟨.halt, rfl, behind_of_past hm hz (Cpu.step_zero hm hz).2.1⟩
  | error f =>
    rcases Cpu.step_error_kinds hresult with ⟨addr, rfl⟩ | ⟨code, rfl⟩
    · exact exists_explains_refusal hresult
    · obtain ⟨r, policy⟩ := d
      obtain ⟨rfl, hm, hc, hcode⟩ := Cpu.step_unimplemented_iff.mp hresult
      have hd : decode (image.read r.pc) = none := by
        rw [show image.read r.pc = code from hc]
        exact decode_eq_none_iff.mpr hcode
      exact ⟨.unknown code, rfl, rfl, decode_eq_none_iff.mpr hcode,
        behind_of_past hm hc (Cpu.step_refused ⟨hm, hd⟩).2.1⟩

end Exit

namespace Cpu

variable {c d : Cpu} {image : Image} {k n : Nat}

theorem interpret_of_size {program : Array UInt8} (hsize : program.size ≤ 0xFFFF) (c : Cpu)
    (n : Nat) :
    let t := run { c with registers := { c.registers with pc := 0 } } Image.bus ⟨program, hsize⟩ n
    c.interpret program n = ⟨t.ending, t.registers, t.messages⟩ := by
  have himage : Image.ofBytes program = .ok ⟨program, hsize⟩ := dif_pos hsize
  rw [interpret, himage]

theorem interpret_of_large {program : Array UInt8} (hsize : 0xFFFF < program.size) (c : Cpu)
    (n : Nat) :
    c.interpret program n = ⟨.faulted (.programTooLarge program.size), c.registers, #[]⟩ := by
  have himage : Image.ofBytes program = .error (.programTooLarge program.size) :=
    dif_neg (Nat.not_le.mpr hsize)
  rw [interpret, himage]

theorem interpret_tooLarge_iff {program : Array UInt8} {length : Nat} :
    (c.interpret program n).ending = .faulted (.programTooLarge length) ↔
      length = program.size ∧ 0xFFFF < program.size := by
  by_cases hsize : program.size ≤ 0xFFFF
  · rw [interpret_of_size hsize]
    constructor
    · intro h
      rcases run_error_kinds h with ⟨addr, hf⟩ | ⟨code, hf⟩ <;> cases hf
    · intro h
      omega
  · have hlarge := Nat.lt_of_not_le hsize
    rw [interpret_of_large hlarge]
    simp [hlarge, eq_comm]

theorem run_image_exit (h : (c.run Image.bus image n).ending ≠ .unfinished) :
    let s := c.run Image.bus image n
    ∃ k r, let d : Cpu := { c with registers := r }
      k < n ∧ Reaches Image.bus k c image d image ∧
        (d.step Image.bus image).stop = ⟨s.ending, s.registers, image⟩ ∧
        ∃! x : Exit, x.ending = s.ending ∧ x.Explains image d s.registers := by
  intro s
  obtain ⟨k, d, image', hk, hreach, hd, hstop⟩ := run_finished h
  obtain rfl : image = image' := hreach.image_eq.symm
  obtain ⟨hending, hregisters, hmemory⟩ := Stop.mk.inj hstop
  rw [step_image_memory] at hmemory
  have hpolicy : d = { c with registers := d.registers } := by
    rw [← hreach.policy_eq]
  refine ⟨k, d.registers, ?_⟩
  rw [← hpolicy]
  refine ⟨hk, hreach, ?_, ?_⟩
  · rw [← hstop, Run.stop, hmemory]
  · obtain ⟨x, hx, hexplains⟩ := Exit.exists_explains hd
    rw [hending, hregisters]
    refine ⟨x, ⟨hx, hexplains⟩, fun y hy => ?_⟩
    exact Exit.eq_of_explains hy.2 hexplains (hy.1.trans hx.symm)

theorem Reaches.not_writes {i : Instruction} (h : Reaches Image.bus k c image d image)
    (hhalted : (c.run Image.bus image n).ending = .halted)
    (hd : decode (image.read d.registers.pc) = some i) : i.writes = false := by
  by_cases hs : (d.step Image.bus image).result = .ok .proceed
  · exact not_writes_of_step hs hd
  · have hends : c.Ends Image.bus image (c.run Image.bus image n).stop :=
      ⟨by simp [Run.stop, hhalted], n, rfl⟩
    have hlast := (ends_of_stop hs).mp ((h.ends_iff _).mp hends)
    have hending : Ending.ofResult (d.step Image.bus image).result = .halted :=
      (congrArg Stop.ending hlast).symm.trans hhalted
    exact not_writes_of_step (Ending.ofResult_eq_halted.mp hending) hd

/-- A program is too long if and only if it has more than 65535 bytes, and then nothing changes. Otherwise it
does not matter where the program counter was, no write is made, and the interpretation ends, if it does,
in exactly one way: behind a `0x00` of the program, at a read from its end on, at the first write that is
tried, or behind a byte that the policy forbids. If it halts then no instruction was executed that
writes. -/
theorem interpret_exits (c : Cpu) (program : Array UInt8) (n : Nat) :
    let s := c.interpret program n
    (∀ length, s.ending = .faulted (.programTooLarge length) ↔
        length = program.size ∧ 0xFFFF < program.size) ∧
      (0xFFFF < program.size → s.registers = c.registers) ∧
      ∀ hsize : program.size ≤ 0xFFFF,
        let image : Image := ⟨program, hsize⟩
        let start : Cpu := { c with registers := { c.registers with pc := 0 } }
        (∀ pc, interpret { c with registers := { c.registers with pc := pc } } program n = s) ∧
          (∀ a ∈ (start.run Image.bus image n).accesses, a.isWrite = false) ∧
          (s.ending ≠ .unfinished →
            ∃ k r, let d : Cpu := { c with registers := r }
              k < n ∧ Reaches Image.bus k start image d image ∧
                (d.step Image.bus image).stop = ⟨s.ending, s.registers, image⟩ ∧
                ∃! x : Exit, x.ending = s.ending ∧ x.Explains image d s.registers) ∧
          (s.ending = .halted → ∀ k d i, Reaches Image.bus k start image d image →
            decode (image.read d.registers.pc) = some i → i.writes = false) := by
  refine ⟨fun length => interpret_tooLarge_iff, ?_, ?_⟩
  · intro hlarge
    rw [interpret_of_large hlarge]
  · intro hsize image start
    rw [interpret_of_size hsize]
    refine ⟨?_, start.run_image_reads image n, run_image_exit, ?_⟩
    · intro pc
      rw [interpret_of_size hsize]
    · intro hhalted k d i hreach hd
      exact hreach.not_writes hhalted hd

def overwriting : Image :=
  -- `NOP` and `STA $00`, which would overwrite the `NOP`
  ⟨#[0xEA, 0x85, 0x00], by decide⟩

theorem interpret_exits_overwriting :
    let s := powerOn.interpret overwriting.bytes 2
    (s.ending = .faulted (.outOfBounds 0) ∧
        ∃ r, let d : Cpu := { powerOn with registers := r }
          (d.step Image.bus overwriting).stop = ⟨s.ending, s.registers, overwriting⟩ ∧
            Exit.Explains overwriting d s.registers (.write 0)) ∧
      ((powerOn.interpret #[0x00] 1).ending = .halted ∧
        ∀ i, decode 0 = some i → i.writes = false) ∧
      (powerOn.interpret (Array.replicate 0x10000 0x00) 1).registers = powerOn.registers := by
  intro s
  have hend : s.ending = .faulted (.outOfBounds 0) := by decide +kernel
  have hhalted : (powerOn.interpret #[0x00] 1).ending = .halted := by decide +kernel
  obtain ⟨-, -, hstore⟩ := interpret_exits powerOn overwriting.bytes 2
  obtain ⟨-, -, hbreak⟩ := interpret_exits powerOn #[0x00] 1
  obtain ⟨-, hlarge, -⟩ := interpret_exits powerOn (Array.replicate 0x10000 0x00) 1
  refine ⟨⟨hend, ?_⟩, ⟨hhalted, ?_⟩, hlarge (by simp)⟩
  · obtain ⟨-, -, hexit, -⟩ := hstore overwriting.size_le
    have hfinished : s.ending ≠ .unfinished := by simp [hend]
    obtain ⟨k, r, -, -, hstop, x, ⟨hx, hexplains⟩, -⟩ := hexit hfinished
    refine ⟨r, hstop, ?_⟩
    rw [hend] at hx
    cases x with
    | write addr =>
      cases hx
      exact hexplains
    | read addr =>
      cases hx
      exact absurd hexplains.1 (by decide)
    | halt | unknown => cases hx
  · intro i hd
    exact (hbreak (by decide)).2.2.2 hhalted 0 _ i (.refl _ _) hd

end Cpu

end Cpu6502
