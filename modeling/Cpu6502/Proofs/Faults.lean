import Cpu6502.FlatMemory
import Cpu6502.Proofs.Iteration

/-!
Which faults there are. A step fails because the bus refuses an access or because the policy stops at a
byte that encodes no instruction, and for no other reason: no encoding asks for the address of an operand
that has none. What fails a run is a step of it (`Cpu.run_faulted_iff`), so the same goes for runs. In
flat memory, where nothing is refused, runs that pass over unknown bytes do not fail at all.
-/

namespace Cpu6502

variable {β : Type}

namespace Cpu

variable {c : Cpu} {bus : Bus β} {b : β} {n : Nat}

def Forbids (c : Cpu) (bus : Bus β) (b : β) (code : UInt8) : Prop :=
  c.policy = .error ∧ bus.mapped b c.registers.pc = true ∧
    bus.read b c.registers.pc = code ∧ code ∉ Instruction.table.map (·.1)

theorem step_error_kinds {f : Fault} (h : (c.step bus b).result = .error f) :
    (∃ addr, f = .outOfBounds addr) ∨ ∃ code, f = .unimplementedOpcode code := by
  rcases step_error_cases h with ⟨-, hf, -⟩ | ⟨-, m, -, -, -, -, hf⟩
  · exact .inr ⟨_, hf⟩
  · exact .inl ⟨_, hf⟩

theorem step_unimplemented_iff {code : UInt8} :
    (c.step bus b).result = .error (.unimplementedOpcode code) ↔ c.Forbids bus b code := by
  obtain ⟨r, policy⟩ := c
  constructor
  · intro h
    by_cases hu : bus.Undocumented b r.pc
    · cases policy with
      | skip =>
        rw [(step_skipped hu).1] at h
        cases h
      | error =>
        rw [(step_refused hu).1] at h
        cases h
        exact ⟨rfl, hu.1, rfl, decode_eq_none_iff.mp hu.2⟩
    · -- the policy is not asked for
      have herror : (step ⟨r, .error⟩ bus b).result = .error (.unimplementedOpcode code) := by
        cases policy with
        | skip => rwa [← step_policy hu]
        | error => exact h
      exact absurd (undocumented_of_result herror) hu
  · intro h
    obtain ⟨rfl, hm, rfl, hcode⟩ := h
    exact (step_refused ⟨hm, decode_eq_none_iff.mpr hcode⟩).1

theorem run_faulted_iff {f : Fault} :
    (c.run bus b n).ending = .faulted f ↔
      ∃ k d e, k < n ∧ Reaches bus k c b d e ∧ (d.step bus e).result = .error f := by
  constructor
  · intro h
    have hfinished : (c.run bus b n).ending ≠ .unfinished := by simp [h]
    obtain ⟨k, d, e, hk, hreach, -, hstop⟩ := run_finished hfinished
    have hending : (c.run bus b n).ending = .ofResult (d.step bus e).result :=
      congrArg Stop.ending hstop
    exact ⟨k, d, e, hk, hreach, Ending.ofResult_eq_faulted.mp (hending.symm.trans h)⟩
  · intro h
    obtain ⟨k, d, e, hk, hreach, hf⟩ := h
    have hstop := hreach.run_eq_stop (by simp [hf]) hk
    exact (congrArg Stop.ending hstop).trans (Ending.ofResult_eq_faulted.mpr hf)

theorem run_error_kinds {f : Fault} (h : (c.run bus b n).ending = .faulted f) :
    (∃ addr, f = .outOfBounds addr) ∨ ∃ code, f = .unimplementedOpcode code := by
  obtain ⟨-, d, e, -, -, hf⟩ := run_faulted_iff.mp h
  exact step_error_kinds hf

theorem run_unimplemented_iff {code : UInt8} :
    (c.run bus b n).ending = .faulted (.unimplementedOpcode code) ↔
      ∃ k d e, k < n ∧ Reaches bus k c b d e ∧ d.Forbids bus e code := by
  simp only [run_faulted_iff, step_unimplemented_iff]

theorem step_flat_succeeds (r : Registers) (m : FlatMemory) :
    ∃ s, (step ⟨r, .skip⟩ FlatMemory.bus m).result = .ok s := by
  have hfree : step ⟨r, .skip⟩ FlatMemory.bus m = step ⟨r, .skip⟩ FlatMemory.bus.unrestricted m := rfl
  rw [hfree]
  cases hd : decode (FlatMemory.bus.read m r.pc) with
  | some i => exact ⟨_, (step_documented hd).1⟩
  | none => exact ⟨.proceed, (step_undocumented hd).2⟩

theorem run_flat_succeeds (r : Registers) (m : FlatMemory) (n : Nat) (f : Fault) :
    (run ⟨r, .skip⟩ FlatMemory.bus m n).ending ≠ .faulted f := by
  intro h
  obtain ⟨k, ⟨q, policy⟩, e, -, hreach, hf⟩ := run_faulted_iff.mp h
  obtain rfl : policy = .skip := hreach.policy_eq
  obtain ⟨s, hs⟩ := step_flat_succeeds q e
  rw [hs] at hf
  cases hf

/-- No step and no run fails for want of an effective address or for the length of a program; they fail with
an unknown byte if and only if that is what the program counter stands at and the policy forbids it. Hence
nothing fails in flat memory if unknown bytes are passed over. -/
theorem faults_expected (c : Cpu) (bus : Bus β) (b : β) :
    (∀ mode, (c.step bus b).result ≠ .error (.noEffectiveAddress mode)) ∧
      (∀ length, (c.step bus b).result ≠ .error (.programTooLarge length)) ∧
      (∀ code, (c.step bus b).result = .error (.unimplementedOpcode code) ↔ c.Forbids bus b code) ∧
      (∀ n mode, (c.run bus b n).ending ≠ .faulted (.noEffectiveAddress mode)) ∧
      (∀ n length, (c.run bus b n).ending ≠ .faulted (.programTooLarge length)) ∧
      (∀ n code, (c.run bus b n).ending = .faulted (.unimplementedOpcode code) ↔
        ∃ k d e, k < n ∧ Reaches bus k c b d e ∧ d.Forbids bus e code) ∧
      ∀ r m n f, (run ⟨r, .skip⟩ FlatMemory.bus m n).ending ≠ .faulted f := by
  refine ⟨?_, ?_, fun code => step_unimplemented_iff, ?_, ?_,
    fun n code => run_unimplemented_iff, fun r m n f => run_flat_succeeds r m n f⟩
  · intro mode h
    rcases step_error_kinds h with ⟨addr, hf⟩ | ⟨code, hf⟩ <;> cases hf
  · intro length h
    rcases step_error_kinds h with ⟨addr, hf⟩ | ⟨code, hf⟩ <;> cases hf
  · intro n mode h
    rcases run_error_kinds h with ⟨addr, hf⟩ | ⟨code, hf⟩ <;> cases hf
  · intro n length h
    rcases run_error_kinds h with ⟨addr, hf⟩ | ⟨code, hf⟩ <;> cases hf

end Cpu

end Cpu6502
