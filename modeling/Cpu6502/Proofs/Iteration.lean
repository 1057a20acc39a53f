import Cpu6502.Proofs.Policy

/-!
A run is its steps, one after another, up to the first that does not proceed. What that step comes to
is what the run comes to, and a run may be broken off after any number of steps and taken up again
from the registers and memory they leave (`Cpu.run_iterates`). The only step that halts is that of the
byte `0x00`, which does nothing else (`Cpu.step_halt_iff`).
-/

namespace Cpu6502

variable {β : Type}

def Turn.Proceeds (t : Turn β) : Prop := t.outcome.result = .ok .proceed

namespace Cpu

variable {c d : Cpu} {bus : Bus β} {b e : β} {k n : Nat}

theorem Reaches.turns_proceed (h : Reaches bus k c b d e) :
    (∀ t ∈ c.turns bus b k, t.Proceeds) ∧ c.after bus b k = (d, e) := by
  induction h with
  | refl c b => exact ⟨by simp [turns], rfl⟩
  | step hs _ ih => exact ⟨List.forall_mem_cons.mpr ⟨hs, ih.1⟩, ih.2⟩

theorem reaches_after (h : ∀ t ∈ c.turns bus b k, t.Proceeds) :
    Reaches bus k c b (c.after bus b k).1 (c.after bus b k).2 := by
  induction k generalizing c b with
  | zero => exact .refl c b
  | succ k ih =>
    obtain ⟨hs, hrest⟩ := List.forall_mem_cons.mp h
    exact .step hs (ih hrest)

theorem exists_first_stop (h : ∃ t ∈ c.turns bus b n, ¬ t.Proceeds) :
    ∃ k d e, k < n ∧ Reaches bus k c b d e ∧ (d.step bus e).result ≠ .ok .proceed := by
  induction n generalizing c b with
  | zero => simp [turns] at h
  | succ n ih =>
    by_cases hs : (c.step bus b).result = .ok .proceed
    · obtain ⟨t, ht, hstop⟩ := h
      rcases List.mem_cons.mp ht with rfl | ht
      · exact absurd hs hstop
      · obtain ⟨k, d, e, hk, hreach, hd⟩ := ih ⟨t, ht, hstop⟩
        exact ⟨k + 1, d, e, Nat.succ_lt_succ hk, .step hs hreach, hd⟩
    · exact ⟨0, c, b, Nat.succ_pos n, .refl c b, hs⟩

theorem Reaches.mem_turns (h : Reaches bus k c b d e) :
    ⟨d.registers, e, d.step bus e⟩ ∈ c.turns bus b (k + 1) := by
  rw [turns_add, h.turns_proceed.2]
  exact List.mem_append_right _ List.mem_cons_self

theorem ends_iff_exists_stop :
    (∃ s, c.Ends bus b s) ↔ ∃ n, ∃ t ∈ c.turns bus b n, ¬ t.Proceeds := by
  constructor
  · intro h
    obtain ⟨s, hs, n, rfl⟩ := h
    obtain ⟨k, d, e, -, hreach, hd, -⟩ := run_finished hs
    exact ⟨k + 1, _, hreach.mem_turns, hd⟩
  · intro h
    obtain ⟨n, h⟩ := h
    obtain ⟨k, d, e, -, hreach, hd⟩ := exists_first_stop h
    exact ⟨_, (hreach.ends_iff _).mpr ((ends_of_stop hd).mpr rfl)⟩

theorem run_unmapped (h : bus.mapped b c.registers.pc = false) (n : Nat) :
    (c.run bus b (n + 1)).stop = ⟨.faulted (.outOfBounds c.registers.pc), c.registers, b⟩ := by
  have hs : c.step bus b = ⟨.error (.outOfBounds c.registers.pc), c.registers, b, [], []⟩ :=
    step_unmapped h
  rw [run_of_stop (by simp [hs]), hs]
  rfl

theorem decode_zero : decode 0 = some ⟨.brk, .implicit⟩ :=
  decode_eq_some_iff.mpr List.mem_cons_self

theorem eq_zero_of_answer {code : UInt8} {i : Instruction} (hd : decode code = some i)
    (h : i.mnemonic.action.answer = .halt) : code = 0 := by
  obtain ⟨m, mode⟩ := i
  obtain rfl : m = .brk := by cases m <;> first | rfl | cases h
  obtain ⟨rfl, -⟩ : code = 0 ∧ mode = .implicit := by
    simpa [Mnemonic.encodings] using decode_eq_some_iff.mp hd
  rfl

theorem step_zero (hm : bus.mapped b c.registers.pc = true)
    (hz : bus.read b c.registers.pc = 0) :
    let o := c.step bus b
    o.result = .ok .halt ∧ o.registers = { c.registers with pc := c.registers.pc + 1 } ∧
      o.memory = b ∧ o.accesses = [.read c.registers.pc 0] := by
  rw [step_mapped hm, hz]
  simp only [Micro.execution, decode_zero]
  exact ⟨rfl, rfl, rfl, rfl⟩

theorem step_halt_iff :
    (c.step bus b).result = .ok .halt ↔
      bus.mapped b c.registers.pc = true ∧ bus.read b c.registers.pc = 0 := by
  constructor
  · intro h
    refine ⟨mapped_of_step h, ?_⟩
    rw [step_eq_unrestricted h] at h
    cases hd : decode (bus.read b c.registers.pc) with
    | some i =>
      rw [(step_documented hd).1] at h
      exact eq_zero_of_answer hd (Except.ok.inj h)
    | none =>
      rw [(step_undocumented hd).2] at h
      cases hp : c.policy <;> rw [hp] at h <;> cases h
  · intro h
    exact (step_zero h.1 h.2).1

theorem walk_succ (c : Cpu) (bus : Bus β) (b : β) (n : Nat) :
    ∃ rest, c.walk bus b (n + 1) = c.step bus b :: rest := by
  rw [walk]
  split
  · exact ⟨_, rfl⟩
  · exact ⟨[], rfl⟩

theorem run_first_access (hm : bus.mapped b c.registers.pc = true) (n : Nat) :
    (c.run bus b (n + 1)).accesses[0]? =
      some (.read c.registers.pc (bus.read b c.registers.pc)) := by
  obtain ⟨rest, hwalk⟩ := c.walk_succ bus b n
  rw [run_eq_ofOutcomes, hwalk, step_mapped hm]
  rfl

theorem halted_cases (h : (c.run bus b n).ending = .halted) :
    ∃ k d, k < n ∧ Reaches bus k c b d (c.run bus b n).memory ∧
      bus.mapped (c.run bus b n).memory d.registers.pc = true ∧
      bus.read (c.run bus b n).memory d.registers.pc = 0 ∧
      (c.run bus b n).registers = { d.registers with pc := d.registers.pc + 1 } := by
  have hfinished : (c.run bus b n).ending ≠ .unfinished := by simp [h]
  obtain ⟨k, d, e, hk, hreach, -, hstop⟩ := run_finished hfinished
  obtain ⟨hending, hregisters, hmemory⟩ := Stop.mk.inj hstop
  have hhalt : (d.step bus e).result = .ok .halt :=
    Ending.ofResult_eq_halted.mp (hending.symm.trans h)
  obtain ⟨hm, hz⟩ := step_halt_iff.mp hhalt
  obtain ⟨-, hpassed, hkept, -⟩ := step_zero hm hz
  rw [hmemory, hregisters, hpassed, hkept]
  exact ⟨k, d, hk, hreach, hm, hz, rfl⟩

/-- A run ends if and only if some step of the sequence of steps does not proceed. It then comes to what the
first such step comes to, and it comes to the same if it is started after any of the steps before
that. A step halts if and only if it fetches `0x00`, and then nothing but the program counter has moved; so a
run that has halted stands behind such a byte, and goes on there if it is called again. -/
theorem run_iterates (c : Cpu) (bus : Bus β) (b : β) :
    ((∃ s, c.Ends bus b s) ↔ ∃ n, ∃ t ∈ c.turns bus b n, ¬ t.Proceeds) ∧
      (∀ k, (∀ t ∈ c.turns bus b k, t.Proceeds) →
        let d := (c.after bus b k).1
        let e := (c.after bus b k).2
        (∀ s, c.Ends bus b s ↔ d.Ends bus e s) ∧
          ((d.step bus e).result ≠ .ok .proceed →
            ∀ s, c.Ends bus b s ↔ s = (d.step bus e).stop)) ∧
      (let o := c.step bus b
        let pc := c.registers.pc
        (o.result = .ok .halt ↔ bus.mapped b pc = true ∧ bus.read b pc = 0) ∧
          (o.result = .ok .halt → o.registers = { c.registers with pc := pc + 1 } ∧
            o.memory = b ∧ o.accesses = [.read pc 0])) ∧
      ∀ n, let s := c.run bus b n
        s.ending = .halted → ∃ p, s.registers.pc = p + 1 ∧
          bus.mapped s.memory p = true ∧ bus.read s.memory p = 0 ∧
          let again : Cpu := { c with registers := s.registers }
          ∀ m, if bus.mapped s.memory (p + 1) = true then
              (again.run bus s.memory (m + 1)).accesses[0]? =
                some (.read (p + 1) (bus.read s.memory (p + 1)))
            else (again.run bus s.memory (m + 1)).stop =
              ⟨.faulted (.outOfBounds (p + 1)), s.registers, s.memory⟩ := by
  refine ⟨ends_iff_exists_stop, ?_, ?_, ?_⟩
  · intro k hk d e
    have hreach := reaches_after hk
    exact ⟨hreach.ends_iff, fun hd s => (hreach.ends_iff s).trans (ends_of_stop hd)⟩
  · intro o pc
    refine ⟨step_halt_iff, fun h => ?_⟩
    obtain ⟨hm, hz⟩ := step_halt_iff.mp h
    exact (step_zero hm hz).2
  · intro n s h
    obtain ⟨-, d, -, -, hm, hz, hregisters⟩ := halted_cases h
    have hpc : s.registers.pc = d.registers.pc + 1 := congrArg Registers.pc hregisters
    refine ⟨d.registers.pc, hpc, hm, hz, ?_⟩
    intro again m
    rw [← hpc]
    split
    · rename_i hnext
      exact run_first_access (c := again) hnext m
    · rename_i hnext
      exact run_unmapped (c := again) (Bool.eq_false_iff.mpr hnext) m

def idling : Bus Unit where
  -- `NOP` and `BRK`, and nothing behind them
  read _ addr := if addr = 0 then 0xEA else 0
  write _ _ _ := ()
  mapped _ addr := addr < 2

theorem run_iterates_idling :
    let s := powerOn.run idling () 2
    (∀ t ∈ powerOn.turns idling () 1, t.Proceeds) ∧ s.ending = .halted ∧
      powerOn.Ends idling () ⟨.halted, startingAt 2, ()⟩ ∧
      ∃ p, s.registers.pc = p + 1 ∧ idling.mapped () p = true ∧ idling.read () p = 0 ∧
        (run { powerOn with registers := s.registers } idling () 1).stop =
          ⟨.faulted (.outOfBounds (p + 1)), s.registers, ()⟩ := by
  intro s
  have hone : ∀ t ∈ powerOn.turns idling () 1, t.Proceeds := by
    simp only [turns, List.mem_singleton, forall_eq]
    rfl
  have hhalted : s.ending = .halted := by decide +kernel
  obtain ⟨-, hsteps, -, hstands⟩ := run_iterates powerOn idling ()
  obtain ⟨-, hends⟩ := hsteps 1 hone
  obtain ⟨p, hpc, hm, hz, hagain⟩ := hstands 2 hhalted
  have hp : p = 1 := by
    have hpc : (2 : UInt16) = p + 1 := Eq.trans (by decide +kernel) hpc
    grind
  subst hp
  have hbreak : (step ⟨startingAt 1, .error⟩ idling ()).result = .ok .halt :=
    step_halt_iff.mpr ⟨rfl, rfl⟩
  have hstop : (step ⟨startingAt 1, .error⟩ idling ()).result ≠ .ok .proceed := by simp [hbreak]
  exact ⟨hone, hhalted, (hends hstop _).mpr rfl, 1, hpc, hm, hz, hagain 0⟩

end Cpu

end Cpu6502
