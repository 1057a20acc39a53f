import Cpu6502.Proofs.Endings

/-!
The log as a transcript of the run. An instruction notes nothing but that it halts
(`Action.perform_mute`), so on a bus that does not log the writes it takes, a step that fetches an opcode
logs the fetch, and at most one message more (`Cpu.step_messages`). What a run logs is what its turns
log, one after another, and so a run has halted if and only if its log says so in the end
(`Cpu.run_transcript`). All this can be told from the lines alone (`Transcript.written`). The bus of an
image would log a write that it is given, but it is given none.
-/

namespace Cpu6502

variable {α β γ : Type}

def Bus.Silent (bus : Bus β) : Prop :=
  ∀ b addr v, bus.writable b addr = true → bus.report b addr v = []

theorem Image.silent : Image.bus.Silent := fun _ _ _ h => nomatch h

def Microcode.Mute : Microcode α → Prop
  | .done _ _ | .fail _ _ => True
  | .read _ _ next => ∀ v, (next v).Mute
  | .write _ _ _ next => next.Mute
  | .note _ _ => False

namespace Microcode.Mute

theorem bind {t : Microcode α} {f : α → Registers → Microcode γ} (h : t.Mute)
    (hf : ∀ a r, (f a r).Mute) : (t.bind f).Mute := by
  induction t with
  | done r a => exact hf a r
  | fail r e => trivial
  | read r addr next ih => exact fun v => ih v (h v)
  | write r addr v next ih => exact ih h
  | note m next ih => exact h.elim

theorem exec_messages {bus : Bus β} (hbus : bus.Silent) {t : Microcode α} (h : t.Mute) (b : β) :
    (t.exec bus b).messages = [] := by
  induction t generalizing b with
  | done r a => rfl
  | fail r e => rfl
  | read r addr next ih =>
    simp only [exec]
    split
    · exact ih _ (h _) b
    · rfl
  | write r addr v next ih =>
    simp only [exec]
    split
    · rename_i hw
      simp only [Outcome.noting, Outcome.after, hbus b addr v hw, List.nil_append]
      exact ih h _
    · rfl
  | note m next ih => exact h.elim

end Microcode.Mute

namespace Micro

def Mute (m : Micro α) : Prop := ∀ r, (m r).Mute

theorem Mute.bind {m : Micro α} {f : α → Micro γ} (h : m.Mute) (hf : ∀ a, (f a).Mute) :
    (m >>= f).Mute := fun r => (h r).bind hf

theorem mute_read (addr : UInt16) : (read addr).Mute := fun _ _ => trivial

theorem mute_effectiveAddress (mode : AddressingMode) : (effectiveAddress mode).Mute := by
  intro r
  cases mode with
  | implicit | accumulator => trivial
  | immediate | zeroPage | zeroPageX | zeroPageY | relative => exact fun _ => trivial
  | absolute | absoluteX | absoluteY => exact fun _ _ => trivial
  | indirectX | indirectY => exact fun _ _ _ => trivial
  | indirect => exact fun _ _ _ _ => trivial

theorem mute_operand (mode : AddressingMode) : (operand mode).Mute := by
  have haddress : (effectiveAddress mode >>= read).Mute :=
    (mute_effectiveAddress mode).bind mute_read
  cases mode with
  | immediate => exact fun _ _ => trivial
  | accumulator => exact fun _ => trivial
  | _ => exact haddress

end Micro

open Micro in
theorem Action.perform_mute {act : Action} (h : act.answer = .proceed) (mode : AddressingMode) :
    (act.perform mode).Mute := by
  cases act with
  | consume effect => exact (mute_operand mode).bind fun _ _ => trivial
  | store source | branch flag wanted | jump | call =>
    exact (mute_effectiveAddress mode).bind fun _ _ => trivial
  | modify change =>
    have hmemory : (effectiveAddress mode >>= fun addr => Micro.read addr >>= fun old =>
        registers >>= fun r => do
          update fun s => { s with status := change.flags r.status old }
          Micro.write addr (change.byte r.status old)
          update fun s => { s with status := s.status.withResult (change.byte r.status old) }
          return Step.proceed).Mute :=
      (mute_effectiveAddress mode).bind fun _ => (mute_read _).bind fun _ _ => trivial
    cases mode with
    | accumulator => exact fun _ => trivial
    | _ => exact hmemory
  | internal effect | push source => exact fun _ => trivial
  | pull effect => exact fun _ _ => trivial
  | returnFromCall => exact fun _ _ _ => trivial
  | returnFromInterrupt => exact fun _ _ _ _ => trivial
  | halt => cases h

/-- Nothing if no opcode can be fetched. Otherwise the opcode, with the registers as they were before
it, and then the address that it came from, if it halts or is passed over. -/
def Turn.entries (policy : UnknownOpcodes) (bus : Bus β) (t : Turn β) : List Message :=
  let pc := t.before.pc
  let code := bus.read t.memory pc
  if bus.mapped t.memory pc then
    .fetched (.ofCode code) t.before ::
      ((if Ending.ofResult t.outcome.result = .halted then [.halted pc] else []) ++
        if decode code = none ∧ policy = .skip then [.skipped code pc] else [])
  else []

theorem Turn.halted_mem_entries {policy : UnknownOpcodes} {bus : Bus β} {t : Turn β} {pc : UInt16} :
    .halted pc ∈ t.entries policy bus ↔ bus.mapped t.memory t.before.pc = true ∧
      Ending.ofResult t.outcome.result = .halted ∧ pc = t.before.pc := by
  cases hm : bus.mapped t.memory t.before.pc <;>
    by_cases hhalt : Ending.ofResult t.outcome.result = .halted <;> simp [entries, hm, hhalt]

theorem Turn.droppedWrite_not_mem_entries (policy : UnknownOpcodes) (bus : Bus β) (t : Turn β)
    (addr : UInt16) (v : UInt8) : .droppedWrite addr v ∉ t.entries policy bus := by
  cases hm : bus.mapped t.memory t.before.pc <;>
    by_cases hhalt : Ending.ofResult t.outcome.result = .halted <;> simp [entries, hm, hhalt]

namespace Cpu

variable {c : Cpu} {bus : Bus β} {b : β} {n : Nat}

theorem execution_messages (hbus : bus.Silent) {code : UInt8} (hcode : code ≠ 0) (r : Registers)
    (policy : UnknownOpcodes) :
    ((Micro.execution policy r code).exec bus b).messages =
      if decode code = none ∧ policy = .skip then [.skipped code r.pc] else [] := by
  cases hd : decode code with
  | none =>
    simp only [Micro.execution, hd]
    cases policy <;> rfl
  | some i =>
    have hproceed : i.mnemonic.action.answer = .proceed := by
      cases ha : i.mnemonic.action.answer with
      | proceed => rfl
      | halt => exact absurd (eq_zero_of_answer hd ha) hcode
    simp only [Micro.execution, hd]
    exact (Action.perform_mute hproceed i.mode (r.past 1)).exec_messages hbus b

theorem step_messages (hbus : bus.Silent) (c : Cpu) (b : β) :
    let o := c.step bus b
    o.messages = Turn.entries c.policy bus ⟨c.registers, b, o⟩ := by
  intro o
  cases hm : bus.mapped b c.registers.pc with
  | false =>
    have ho : o = ⟨.error (.outOfBounds c.registers.pc), c.registers, b, [], []⟩ := step_unmapped hm
    rw [ho]
    simp [Turn.entries, hm]
  | true =>
    have hlog : o.messages = .fetched (.ofCode (bus.read b c.registers.pc)) c.registers ::
        ((Micro.execution c.policy c.registers (bus.read b c.registers.pc)).exec bus b).messages :=
      congrArg Outcome.messages (step_mapped hm)
    have hhalt : Ending.ofResult o.result = .halted ↔ bus.read b c.registers.pc = 0 := by
      rw [Ending.ofResult_eq_halted, step_halt_iff]
      exact and_iff_right hm
    simp only [Turn.entries, hm, if_true, hlog, hhalt]
    congr 1
    by_cases hz : bus.read b c.registers.pc = 0
    · have hpc : c.registers.pc + 1 - 1 = c.registers.pc := by grind
      simp only [hz, Micro.execution, decode_zero, if_true]
      rw [if_neg (by simp)]
      exact congrArg (fun pc => [Message.halted pc]) hpc
    · rw [if_neg hz, execution_messages hbus hz]
      rfl

theorem turn_messages (hbus : bus.Silent) {t : Turn β} (ht : t ∈ c.turns bus b n) :
    t.outcome.messages = t.entries c.policy bus := by
  induction n generalizing c b with
  | zero => cases ht
  | succ n ih =>
    rcases List.mem_cons.mp ht with rfl | ht
    · exact step_messages hbus c b
    · exact ih (c := { c with registers := (c.step bus b).registers }) ht

end Cpu

/-- What a run with the turns `ts` logs if it comes to `ending`. A message that it has halted is the last
one, if there is any. -/
structure Transcript (policy : UnknownOpcodes) (bus : Bus β) (ts : List (Turn β)) (ending : Ending)
    (log : List Message) : Prop where
  entries : log = ts.flatMap (Turn.entries policy bus)
  halted_iff : (∃ pc, .halted pc ∈ log) ↔ ending = .halted
  last : ending = .halted → ∃ early pc, log = early ++ [.halted pc] ∧ ∀ pc', .halted pc' ∉ early
  undropped : ∀ addr v, .droppedWrite addr v ∉ log

structure Transcript.Written (policy : UnknownOpcodes) (bus : Bus β) (ts : List (Turn β)) (ending : Ending)
    (lines : List String) : Prop where
  entries : lines = ts.flatMap fun t => (t.entries policy bus).map Message.line
  halted_iff : (∃ pc, (Message.halted pc).line ∈ lines) ↔ ending = .halted
  last : ending = .halted → ∃ early pc, lines = early ++ [(Message.halted pc).line] ∧
    ∀ pc', (Message.halted pc').line ∉ early
  undropped : ∀ addr v, (Message.droppedWrite addr v).line ∉ lines

namespace Transcript

variable {policy : UnknownOpcodes} {bus : Bus β} {ts : List (Turn β)} {t : Turn β} {ending : Ending}
  {log : List Message}

theorem written (h : Transcript policy bus ts ending log) :
    Written policy bus ts ending (log.map Message.line) := by
  have hhalted (pc : UInt16) (ms : List Message) :
      (Message.halted pc).line ∈ ms.map Message.line ↔ .halted pc ∈ ms := by
    simp [Message.line_eq_halted]
  constructor
  case entries => rw [h.entries, List.map_flatMap]
  case halted_iff => simp only [hhalted, h.halted_iff]
  case last =>
    intro hending
    obtain ⟨early, pc, hlog, hearly⟩ := h.last hending
    refine ⟨early.map Message.line, pc, ?_, fun pc' => ?_⟩
    · rw [hlog, List.map_append, List.map_singleton]
    · rw [hhalted]
      exact hearly pc'
  case undropped =>
    intro addr v hmem
    obtain ⟨m, hm, hline⟩ := List.mem_map.mp hmem
    obtain ⟨addr', v', rfl⟩ := Message.line_eq_droppedWrite hline
    exact h.undropped addr' v' hm

theorem nil (policy : UnknownOpcodes) (bus : Bus β) : Transcript policy bus [] .unfinished [] where
  entries := rfl
  halted_iff := by simp
  last := nofun
  undropped := by simp

theorem cons (h : Transcript policy bus ts ending log) (ht : t.Proceeds) :
    Transcript policy bus (t :: ts) ending (t.entries policy bus ++ log) := by
  have hquiet (pc : UInt16) : .halted pc ∉ t.entries policy bus := by
    rw [Turn.halted_mem_entries, show t.outcome.result = .ok .proceed from ht]
    simp [Ending.ofResult]
  constructor
  case entries => rw [List.flatMap_cons, ← h.entries]
  case halted_iff => simp [hquiet, h.halted_iff]
  case last =>
    intro hhalted
    obtain ⟨early, pc, hlog, hearly⟩ := h.last hhalted
    refine ⟨t.entries policy bus ++ early, pc, by rw [hlog, List.append_assoc], fun pc' hpc => ?_⟩
    exact (List.mem_append.mp hpc).elim (hquiet pc') (hearly pc')
  case undropped =>
    intro addr v hmem
    exact (List.mem_append.mp hmem).elim (t.droppedWrite_not_mem_entries policy bus addr v)
      (h.undropped addr v)

theorem single (policy : UnknownOpcodes) (bus : Bus β) (t : Turn β)
    (hhalt : t.outcome.result = .ok .halt → bus.mapped t.memory t.before.pc = true ∧
      bus.read t.memory t.before.pc = 0) :
    Transcript policy bus [t] (.ofResult t.outcome.result) (t.entries policy bus) := by
  constructor
  case entries => simp
  case halted_iff =>
    simp only [Turn.halted_mem_entries, exists_and_left, exists_eq, and_true]
    refine ⟨And.right, fun h => ⟨?_, h⟩⟩
    exact (hhalt (Ending.ofResult_eq_halted.mp h)).1
  case last =>
    intro h
    obtain ⟨hm, hz⟩ := hhalt (Ending.ofResult_eq_halted.mp h)
    refine ⟨[.fetched (.ofCode 0) t.before], t.before.pc, ?_, by simp⟩
    simp [Turn.entries, hm, hz, h, Cpu.decode_zero]
  case undropped => exact t.droppedWrite_not_mem_entries policy bus

end Transcript

namespace Cpu

variable {c : Cpu} {bus : Bus β} {b : β} {n : Nat}

theorem run_messages (c : Cpu) (bus : Bus β) (b : β) (n : Nat) :
    (c.run bus b n).messages.toList = (c.walk bus b n).flatMap (·.messages) := by
  rw [run_eq_ofOutcomes]
  rfl

def trail (c : Cpu) (bus : Bus β) (b : β) (n : Nat) : List (Turn β) :=
  c.turns bus b (c.walk bus b n).length

theorem run_transcript (hbus : bus.Silent) (c : Cpu) (b : β) (n : Nat) :
    let s := c.run bus b n
    Transcript c.policy bus (c.trail bus b n) s.ending s.messages.toList := by
  intro s
  induction n generalizing c b with
  | zero => exact .nil c.policy bus
  | succ n ih =>
    have hfirst := step_messages hbus c b
    by_cases hs : (c.step bus b).result = .ok .proceed
    · have hwalk : c.walk bus b (n + 1) = c.step bus b ::
          walk { c with registers := (c.step bus b).registers } bus (c.step bus b).memory n := by
        rw [walk, hs]
      have hending : s.ending = _ := congrArg Stop.ending (run_of_proceed hs)
      have hlog : s.messages.toList = _ := c.run_messages bus b (n + 1)
      rw [hwalk, List.flatMap_cons, ← run_messages, hfirst] at hlog
      rw [hending, hlog, trail, hwalk]
      exact (ih { c with registers := (c.step bus b).registers } (c.step bus b).memory).cons hs
    · have hwalk : c.walk bus b (n + 1) = [c.step bus b] := by
        rw [walk]
        split
        · rename_i hp
          exact absurd hp hs
        · rfl
      have hending : s.ending = _ := congrArg Stop.ending (run_of_stop hs)
      have hlog : s.messages.toList = _ := c.run_messages bus b (n + 1)
      rw [hwalk, List.flatMap_singleton, hfirst] at hlog
      rw [hending, hlog, trail, hwalk]
      exact .single c.policy bus _ step_halt_iff.mp

theorem trail_outcomes (c : Cpu) (bus : Bus β) (b : β) (n : Nat) :
    (c.trail bus b n).map (·.outcome) = c.walk bus b n := by
  induction n generalizing c b with
  | zero => rfl
  | succ n ih =>
    have hrest := ih { c with registers := (c.step bus b).registers } (c.step bus b).memory
    rw [trail, walk]
    split
    · exact congrArg (_ :: ·) hrest
    · rfl

theorem step_image_undropped (c : Cpu) (image : Image) (addr : UInt16) (v : UInt8) :
    .droppedWrite addr v ∉ (c.step Image.bus image).messages := by
  rw [step_messages Image.silent]
  exact Turn.droppedWrite_not_mem_entries c.policy Image.bus _ addr v

/-- On a bus that does not log the writes it takes, every step logs what its entries say, and the log of
a run is made of the entries of its turns; it has a message of a halt only in the end, and has it if and
only if the run has halted. So it is with the lines that are written out, and with the interpretation of a
program. No step on an image, no run and no interpretation loses a write. -/
theorem logs_transcribed {bus : Bus β} (hbus : bus.Silent) (c : Cpu) (b : β) :
    (∀ n, ∀ t ∈ c.turns bus b n, t.outcome.messages = t.entries c.policy bus) ∧
      (∀ n, let s := c.run bus b n
        let ts := c.trail bus b n
        ts.map (·.outcome) = c.walk bus b n ∧
          Transcript c.policy bus ts s.ending s.messages.toList ∧
            Transcript.Written c.policy bus ts s.ending (s.messages.toList.map Message.line)) ∧
      (∀ program n, let s := c.interpret program n
        let start : Cpu := { c with registers := { c.registers with pc := 0 } }
        (∀ hsize : program.size ≤ 0xFFFF, let ts := start.trail Image.bus ⟨program, hsize⟩ n
            Transcript c.policy Image.bus ts s.ending s.messages.toList ∧
              Transcript.Written c.policy Image.bus ts s.ending (s.messages.toList.map Message.line)) ∧
          (0xFFFF < program.size → s.messages = #[])) ∧
      ∀ (d : Cpu) (image : Image) addr v,
        .droppedWrite addr v ∉ (d.step Image.bus image).messages ∧
          ∀ n, .droppedWrite addr v ∉ (d.run Image.bus image n).messages.toList := by
  refine ⟨fun n t ht => turn_messages hbus ht, ?_, ?_, ?_⟩
  · intro n s ts
    have htranscript := run_transcript hbus c b n
    exact ⟨c.trail_outcomes bus b n, htranscript, htranscript.written⟩
  · intro program n s start
    constructor
    · intro hsize ts
      have hs : s = _ := interpret_of_size hsize c n
      have htranscript := run_transcript Image.silent start ⟨program, hsize⟩ n
      rw [hs]
      exact ⟨htranscript, htranscript.written⟩
    · intro hlarge
      have hs : s = _ := interpret_of_large hlarge c n
      rw [hs]
  · intro d image addr v
    exact ⟨d.step_image_undropped image addr v, fun n =>
      (run_transcript Image.silent d image n).undropped addr v⟩

example : ((run ⟨startingAt 0, .skip⟩ gapped () 3).messages.map Message.line).toList =
    ["TRACE 0000  EA  NOP Implicit A:00 X:00 Y:00 P:24 SP:00",
      "TRACE 0001  02  ??? Implicit A:00 X:00 Y:00 P:24 SP:00",
      "WARN skipping unknown opcode 0x02 at 0x0001",
      "TRACE 0002  00  BRK Implicit A:00 X:00 Y:00 P:24 SP:00",
      "DEBUG halted at 0x0002"] := by decide +kernel

theorem logs_transcribed_across_gap :
    let c : Cpu := ⟨startingAt 0, .skip⟩
    let t := powerOn.interpret overwriting.bytes 2
    (gapped.Silent ∧ (c.run gapped () 3).messages.toList =
        [.fetched (.ofCode 0xEA) (startingAt 0), .fetched (.ofCode 0x02) (startingAt 1),
          .skipped 0x02 1, .fetched (.ofCode 0x00) (startingAt 2), .halted 2] ∧
      Transcript .skip gapped (c.trail gapped () 3) (c.run gapped () 3).ending
        (c.run gapped () 3).messages.toList) ∧
      t.ending = .faulted (.outOfBounds 0) ∧ t.messages.size = 2 ∧
        ∀ addr v, .droppedWrite addr v ∉ t.messages.toList := by
  intro c t
  have hsilent : gapped.Silent := fun _ _ _ _ => rfl
  obtain ⟨-, hrun, -⟩ := logs_transcribed hsilent c ()
  obtain ⟨-, -, hprogram, -⟩ := logs_transcribed hsilent powerOn ()
  obtain ⟨htranscript, -⟩ := hprogram overwriting.bytes 2
  exact ⟨⟨hsilent, by decide +kernel, (hrun 3).2.1⟩, by decide +kernel, by decide +kernel,
    (htranscript overwriting.size_le).1.undropped⟩

end Cpu

end Cpu6502
