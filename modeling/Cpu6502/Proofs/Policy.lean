import Cpu6502.Proofs.Reach
import Cpu6502.Proofs.Residue
import Cpu6502.Proofs.Turn

/-!
The two policies for bytes that encode no instruction. A step asks for the policy in front of such a
byte only (`Cpu.step_policy`), and there the two leave the same: one goes on past the byte and the other
stops behind it. So the policies agree until then, and a run that stops at such bytes and is started
again after each of them is the run that skips them (`Cpu.restarts_iff_ends`).
-/

namespace Cpu6502

variable {β : Type}

def Bus.Undocumented (bus : Bus β) (b : β) (pc : UInt16) : Prop :=
  bus.mapped b pc = true ∧ decode (bus.read b pc) = none

namespace Cpu

variable {r : Registers} {bus : Bus β} {b : β} {e : Stop β}

theorem step_mapped {c : Cpu} (h : bus.mapped b c.registers.pc = true) :
    let code := bus.read b c.registers.pc
    c.step bus b = (((Micro.execution c.policy c.registers code).exec bus b).noting
      [.fetched (.ofCode code) c.registers]).after (.read c.registers.pc code) := by
  rw [step, Micro.instruction_eq, Microcode.exec, if_pos h]
  rfl

theorem step_policy (h : ¬ bus.Undocumented b r.pc) :
    step ⟨r, .skip⟩ bus b = step ⟨r, .error⟩ bus b := by
  cases hm : bus.mapped b r.pc with
  | false => rw [step_unmapped hm, step_unmapped hm]
  | true =>
    rw [step_mapped hm, step_mapped hm]
    cases hd : decode (bus.read b r.pc) with
    | none => exact absurd ⟨hm, hd⟩ h
    | some i => simp only [Micro.execution, hd]

theorem step_skipped (h : bus.Undocumented b r.pc) :
    let o := step ⟨r, .skip⟩ bus b
    o.result = .ok .proceed ∧ o.registers = r.past 1 ∧ o.memory = b := by
  rw [step_mapped h.1]
  simp only [Micro.execution, h.2]
  exact ⟨rfl, rfl, rfl⟩

theorem step_refused (h : bus.Undocumented b r.pc) :
    let o := step ⟨r, .error⟩ bus b
    o.result = .error (.unimplementedOpcode (bus.read b r.pc)) ∧ o.registers = r.past 1 ∧
      o.memory = b := by
  rw [step_mapped h.1]
  simp only [Micro.execution, h.2]
  exact ⟨rfl, rfl, rfl⟩

theorem refused_ne_proceed (h : bus.Undocumented b r.pc) :
    (step ⟨r, .error⟩ bus b).result ≠ .ok .proceed := by
  rw [(step_refused h).1]
  exact nofun

theorem refused_stop (h : bus.Undocumented b r.pc) :
    (step ⟨r, .error⟩ bus b).stop =
      ⟨.faulted (.unimplementedOpcode (bus.read b r.pc)), r.past 1, b⟩ := by
  obtain ⟨hresult, hregisters, hmemory⟩ := step_refused h
  rw [Outcome.stop, hresult, hregisters, hmemory]
  rfl

theorem undocumented_of_result {code : UInt8}
    (h : (step ⟨r, .error⟩ bus b).result = .error (.unimplementedOpcode code)) :
    bus.Undocumented b r.pc := by
  cases hm : bus.mapped b r.pc with
  | false =>
    rw [step_unmapped hm] at h
    cases h
  | true =>
    rcases step_error_cases h with ⟨hd, -⟩ | ⟨past, m, rest, -, -, -, he⟩
    · exact ⟨hm, hd⟩
    · cases he

theorem after_eq (c : Cpu) (bus : Bus β) (b : β) (k : Nat) :
    (c.after bus b k).1 = ⟨(c.after bus b k).1.registers, c.policy⟩ := by
  induction k generalizing c b with
  | zero => rfl
  | succ k ih => exact ih _ _

theorem turns_policy {k : Nat} (h : ∀ t ∈ turns ⟨r, .error⟩ bus b k, t.Succeeds) :
    turns ⟨r, .skip⟩ bus b k = turns ⟨r, .error⟩ bus b k ∧
      after ⟨r, .skip⟩ bus b k =
        (⟨(after ⟨r, .error⟩ bus b k).1.registers, .skip⟩, (after ⟨r, .error⟩ bus b k).2) := by
  induction k generalizing r b with
  | zero => exact ⟨rfl, rfl⟩
  | succ k ih =>
    obtain ⟨⟨s, hs⟩, hrest⟩ := List.forall_mem_cons.mp h
    have hstep : step ⟨r, .skip⟩ bus b = step ⟨r, .error⟩ bus b := by
      refine step_policy fun hu => ?_
      have hs : (step ⟨r, .error⟩ bus b).result = .ok s := hs
      rw [(step_refused hu).1] at hs
      cases hs
    obtain ⟨hturns, hafter⟩ := ih hrest
    rw [turns, turns, after, after, hstep]
    exact ⟨congrArg (_ :: ·) hturns, hafter⟩

theorem walk_policy {n : Nat}
    (h : ∀ code, (run ⟨r, .error⟩ bus b n).ending ≠ .faulted (.unimplementedOpcode code)) :
    walk ⟨r, .skip⟩ bus b n = walk ⟨r, .error⟩ bus b n := by
  induction n generalizing r b with
  | zero => rfl
  | succ n ih =>
    by_cases hu : bus.Undocumented b r.pc
    · -- the run ends here, in a way that `h` excludes
      have hstop : (run ⟨r, .error⟩ bus b (n + 1)).stop = _ :=
        (run_of_stop (refused_ne_proceed hu)).trans (refused_stop hu)
      exact absurd (congrArg Stop.ending hstop) (h _)
    · rw [walk, walk, step_policy hu]
      split
      · rename_i hproceed
        have hending : (run ⟨r, .error⟩ bus b (n + 1)).ending = _ :=
          congrArg Stop.ending (run_of_proceed hproceed)
        exact congrArg (_ :: ·) (ih fun code hrest => h code (hending.trans hrest))
      · rfl

theorem run_policy {n : Nat}
    (h : ∀ code, (run ⟨r, .error⟩ bus b n).ending ≠ .faulted (.unimplementedOpcode code)) :
    run ⟨r, .skip⟩ bus b n = run ⟨r, .error⟩ bus b n := by
  rw [run_eq_ofOutcomes, run_eq_ofOutcomes, walk_policy h]

/-- Runs that stop at bytes that encode no instruction, each but the first started where the one before
it stopped, until one comes to another end. -/
inductive Restarts (bus : Bus β) : Registers → β → Stop β → Prop
  | last {r : Registers} {b : β} {e : Stop β} (h : Ends ⟨r, .error⟩ bus b e)
      (hstop : ∀ code, e.ending ≠ .faulted (.unimplementedOpcode code)) : Restarts bus r b e
  | again {r s : Registers} {b d : β} {e : Stop β} {code : UInt8}
      (h : Ends ⟨r, .error⟩ bus b ⟨.faulted (.unimplementedOpcode code), s, d⟩)
      (rest : Restarts bus s d e) : Restarts bus r b e

theorem Restarts.of_proceed (h : (step ⟨r, .error⟩ bus b).result = .ok .proceed)
    (rest : Restarts bus (step ⟨r, .error⟩ bus b).registers (step ⟨r, .error⟩ bus b).memory e) :
    Restarts bus r b e := by
  cases rest with
  | last hends hstop => exact .last ((ends_of_proceed h).mpr hends) hstop
  | again hends rest => exact .again ((ends_of_proceed h).mpr hends) rest

theorem ends_skip_of_stop {s : Registers} {d : β} {code : UInt8} {n : Nat}
    (h : (run ⟨r, .error⟩ bus b n).stop = ⟨.faulted (.unimplementedOpcode code), s, d⟩)
    (hrest : Ends ⟨s, .skip⟩ bus d e) : Ends ⟨r, .skip⟩ bus b e := by
  induction n generalizing r b with
  | zero => cases h
  | succ n ih =>
    by_cases hu : bus.Undocumented b r.pc
    · -- here one policy stops, and the other goes on from what it leaves
      obtain ⟨hproceed, hregisters, hmemory⟩ := step_skipped hu
      rw [run_of_stop (refused_ne_proceed hu), refused_stop hu] at h
      obtain ⟨-, rfl, rfl⟩ := Stop.mk.inj h
      rw [ends_of_proceed hproceed, hregisters, hmemory]
      exact hrest
    · have hstep : step ⟨r, .skip⟩ bus b = step ⟨r, .error⟩ bus b := step_policy hu
      by_cases hproceed : (step ⟨r, .error⟩ bus b).result = .ok .proceed
      · rw [run_of_proceed hproceed] at h
        rw [ends_of_proceed (hstep ▸ hproceed), hstep]
        exact ih h
      · rw [run_of_stop hproceed] at h
        have hresult := Ending.ofResult_eq_faulted.mp (congrArg Stop.ending h)
        exact absurd (undocumented_of_result hresult) hu

theorem restarts_of_ends {n : Nat} (hn : (run ⟨r, .skip⟩ bus b n).stop = e)
    (he : e.ending ≠ .unfinished) : Restarts bus r b e := by
  induction n generalizing r b with
  | zero =>
    rw [← hn] at he
    exact absurd rfl he
  | succ n ih =>
    by_cases hu : bus.Undocumented b r.pc
    · obtain ⟨hproceed, hregisters, hmemory⟩ := step_skipped hu
      rw [run_of_proceed hproceed, hregisters, hmemory] at hn
      have hstop := (ends_of_stop (refused_ne_proceed hu)).mpr (refused_stop hu).symm
      exact .again hstop (ih hn)
    · have hstep : step ⟨r, .skip⟩ bus b = step ⟨r, .error⟩ bus b := step_policy hu
      by_cases hproceed : (step ⟨r, .skip⟩ bus b).result = .ok .proceed
      · rw [run_of_proceed hproceed, hstep] at hn
        exact .of_proceed (hstep ▸ hproceed) (ih hn)
      · rw [run_of_stop hproceed, hstep] at hn
        rw [hstep] at hproceed
        refine .last ((ends_of_stop hproceed).mpr hn.symm) fun code hcode => ?_
        rw [← hn] at hcode
        exact hu (undocumented_of_result (Ending.ofResult_eq_faulted.mp hcode))

theorem restarts_iff_ends : Restarts bus r b e ↔ Ends ⟨r, .skip⟩ bus b e := by
  constructor
  · intro h
    induction h with
    | last hends hstop =>
      obtain ⟨he, n, rfl⟩ := hends
      exact ⟨he, n, congrArg Run.stop (run_policy hstop)⟩
    | again hends _ ih =>
      obtain ⟨-, n, hn⟩ := hends
      exact ends_skip_of_stop hn ih
  · rintro ⟨he, n, hn⟩
    exact restarts_of_ends hn he

/-- The policies differ by stopping only. While steps succeed under the one that stops they are the steps
of the other, and where it stops the other has proceeded to the same registers and memory, past one
byte. A run that meets no such byte is the same under both, and one that is started again behind each of
them comes to the end of the run that passes over them. -/
theorem policies_agree (bus : Bus β) (b : β) (r : Registers) :
    (∀ k, (∀ t ∈ turns ⟨r, .error⟩ bus b k, t.Succeeds) →
      turns ⟨r, .skip⟩ bus b k = turns ⟨r, .error⟩ bus b k ∧
        let s := after ⟨r, .error⟩ bus b k
        let t := after ⟨r, .skip⟩ bus b k
        t.1.registers = s.1.registers ∧ t.2 = s.2 ∧
          ∀ code, (s.1.step bus s.2).result = .error (.unimplementedOpcode code) →
            let stopped := s.1.step bus s.2
            let skipped := t.1.step bus t.2
            skipped.result = .ok .proceed ∧ skipped.registers = stopped.registers ∧
              skipped.memory = stopped.memory ∧ skipped.memory = t.2 ∧
              skipped.registers = { t.1.registers with pc := t.1.registers.pc + 1 }) ∧
      (∀ n, (∀ code, (run ⟨r, .error⟩ bus b n).ending ≠ .faulted (.unimplementedOpcode code)) →
        run ⟨r, .skip⟩ bus b n = run ⟨r, .error⟩ bus b n) ∧
      ∀ e, Restarts bus r b e ↔ Ends ⟨r, .skip⟩ bus b e := by
  refine ⟨fun k hok => ?_, fun n h => run_policy h, fun e => restarts_iff_ends⟩
  obtain ⟨hturns, hafter⟩ := turns_policy hok
  rw [hafter]
  refine ⟨hturns, rfl, rfl, fun code hcode => ?_⟩
  rw [after_eq] at hcode ⊢
  have hu := undocumented_of_result hcode
  obtain ⟨-, hstopped, hrefused⟩ := step_refused hu
  obtain ⟨hproceed, hskipped, hpassed⟩ := step_skipped hu
  exact ⟨hproceed, hskipped.trans hstopped.symm, hpassed.trans hrefused.symm, hpassed, hskipped⟩

def gapped : Bus Unit where
  -- `NOP`, an undocumented byte and `BRK`
  read _ addr := if addr = 0 then 0xEA else if addr = 1 then 0x02 else 0
  write _ _ _ := ()

def startingAt (pc : UInt16) : Registers := { Registers.powerOn with pc := pc }

theorem policies_agree_across_gap :
    let stopped := step ⟨startingAt 1, .error⟩ gapped ()
    let skipped := step ⟨startingAt 1, .skip⟩ gapped ()
    stopped.result = .error (.unimplementedOpcode 0x02) ∧
      (skipped.result = .ok .proceed ∧ skipped.registers = stopped.registers ∧
        skipped.memory = stopped.memory) ∧
      run ⟨startingAt 2, .skip⟩ gapped () 1 = run ⟨startingAt 2, .error⟩ gapped () 1 ∧
      Ends ⟨startingAt 0, .skip⟩ gapped () ⟨.halted, startingAt 3, ()⟩ := by
  have hstopped : (step ⟨startingAt 1, .error⟩ gapped ()).result =
      .error (.unimplementedOpcode 0x02) := rfl
  have hone : ∀ t ∈ turns ⟨startingAt 0, .error⟩ gapped () 1, t.Succeeds := by
    simp only [turns, List.mem_singleton, forall_eq]
    exact ⟨.proceed, rfl⟩
  have hending : (run ⟨startingAt 2, .error⟩ gapped () 1).ending = .halted := by decide +kernel
  have hagain : Ends ⟨startingAt 0, .error⟩ gapped ()
      ⟨.faulted (.unimplementedOpcode 0x02), startingAt 2, ()⟩ := ⟨by decide, 2, by rfl⟩
  have hlast : Ends ⟨startingAt 2, .error⟩ gapped () ⟨.halted, startingAt 3, ()⟩ :=
    ⟨by decide, 1, by rfl⟩
  obtain ⟨hsteps, -, hruns⟩ := policies_agree gapped () (startingAt 0)
  obtain ⟨-, -, -, hfirst⟩ := hsteps 1 hone
  obtain ⟨hproceed, hregisters, hmemory, -⟩ := hfirst 0x02 hstopped
  refine ⟨hstopped, ⟨hproceed, hregisters, hmemory⟩,
    (policies_agree gapped () (startingAt 2)).2.1 1 ?_, (hruns _).mp (.again hagain (.last hlast ?_))⟩
  · intro code hcode
    cases hending.symm.trans hcode
  · intro code hcode
    cases hcode

end Cpu

end Cpu6502
