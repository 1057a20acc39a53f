import Cpu6502.Action
import Cpu6502.Image

/-!
The processor: a register file and a policy for bytes that encode no instruction, which are
passed over or stop it. Memory is lent to it for each call. `step` performs one instruction, `walk`
lists what each of the first `n` steps does, and `run` takes at most `n` steps until one halts or
faults; a run that is cut short says that it is unfinished. A run is what a walk of the same length
amounts to (`run_eq_ofOutcomes`).
-/

namespace Cpu6502

inductive UnknownOpcodes where
  | skip
  | error
deriving DecidableEq

def UnknownOpcodes.name : UnknownOpcodes → String
  | .skip => "Skip"
  | .error => "Error"

namespace Micro

def instruction (policy : UnknownOpcodes) : Micro Step := do
  let before ← registers
  let code ← fetch
  note (.fetched (.ofCode code) before)
  match decode code with
  | some i => i.perform
  | none =>
      match policy with
      | .skip =>
          note (.skipped code before.pc)
          return .proceed
      | .error => raise (.unimplementedOpcode code)

end Micro

structure Cpu where
  registers : Registers := .powerOn
  policy : UnknownOpcodes := .skip
deriving DecidableEq

inductive Ending where
  | halted
  | faulted (f : Fault)
  | unfinished
deriving DecidableEq

def Ending.ofResult : Except Fault Step → Ending
  | .ok .proceed => .unfinished
  | .ok .halt => .halted
  | .error f => .faulted f

structure Run (β : Type) where
  ending : Ending
  registers : Registers
  memory : β
  accesses : Array Access
  messages : Array Message

def Run.ofOutcomes {β : Type} (r : Registers) (b : β) (os : List (Outcome Step β)) : Run β where
  ending := (os.getLast?.map fun o => Ending.ofResult o.result).getD .unfinished
  registers := (os.getLast?.map fun o => o.registers).getD r
  memory := (os.getLast?.map fun o => o.memory).getD b
  accesses := (os.flatMap fun o => o.accesses).toArray
  messages := (os.flatMap fun o => o.messages).toArray

theorem append_list {α : Type} (xs : Array α) (l : List α) : xs ++ l = xs ++ l.toArray := by
  apply Array.ext'
  simp

namespace Cpu

variable {β : Type}

def powerOn : Cpu := {}

def step (c : Cpu) (bus : Bus β) (b : β) : Outcome Step β :=
  (Micro.instruction c.policy c.registers).exec bus b

def walk (c : Cpu) (bus : Bus β) (b : β) : Nat → List (Outcome Step β)
  | 0 => []
  | n + 1 =>
      let o := c.step bus b
      match o.result with
      | .ok .proceed => o :: walk { c with registers := o.registers } bus o.memory n
      | _ => [o]

/-- Goes on with a run that has done `accesses` and logged `messages`, `n` steps at most. -/
def runFrom (policy : UnknownOpcodes) (bus : Bus β) :
    Nat → Registers → β → Array Access → Array Message → Run β
  | 0, r, b, accesses, messages => ⟨.unfinished, r, b, accesses, messages⟩
  | n + 1, r, b, accesses, messages =>
      match step ⟨r, policy⟩ bus b with
      | ⟨result, r, b, as, ms⟩ =>
          match result with
          | .ok .proceed => runFrom policy bus n r b (accesses ++ as) (messages ++ ms)
          | .ok .halt => ⟨.halted, r, b, accesses ++ as, messages ++ ms⟩
          | .error f => ⟨.faulted f, r, b, accesses ++ as, messages ++ ms⟩

def run (c : Cpu) (bus : Bus β) (b : β) (n : Nat) : Run β :=
  runFrom c.policy bus n c.registers b #[] #[]

theorem runFrom_eq_ofOutcomes (policy : UnknownOpcodes) (bus : Bus β) (n : Nat) (r : Registers)
    (b : β) (as : Array Access) (ms : Array Message) :
    runFrom policy bus n r b as ms =
      let s := Run.ofOutcomes r b (walk ⟨r, policy⟩ bus b n)
      { s with accesses := as ++ s.accesses, messages := ms ++ s.messages } := by
  induction n generalizing r b as ms with
  | zero => simp [runFrom, walk, Run.ofOutcomes]
  | succ n ih =>
    rw [runFrom, walk]
    generalize step ⟨r, policy⟩ bus b = o
    obtain ⟨result, r, b, as', ms'⟩ := o
    rcases result with f | (_ | _)
    · simp [Run.ofOutcomes, Ending.ofResult, append_list]
    · simp only [ih]
      cases hl : (walk ⟨r, policy⟩ bus b n).getLast? <;>
        simp [Run.ofOutcomes, Ending.ofResult, List.getLast?_cons, hl,
          append_list, ← List.append_toArray]
    · simp [Run.ofOutcomes, Ending.ofResult, append_list]

theorem run_eq_ofOutcomes (c : Cpu) (bus : Bus β) (b : β) (n : Nat) :
    c.run bus b n = .ofOutcomes c.registers b (c.walk bus b n) := by
  rw [run, runFrom_eq_ofOutcomes]
  simp

/-- What is left of the run of an image. The image itself cannot have changed. -/
structure Interpretation where
  ending : Ending
  registers : Registers
  messages : Array Message

/-- Runs a program image from its first byte, `n` steps at most. A program that is too long is
refused before anything changes. -/
def interpret (c : Cpu) (program : Array UInt8) (n : Nat) : Interpretation :=
  match Image.ofBytes program with
  | .error f => ⟨.faulted f, c.registers, #[]⟩
  | .ok image =>
      let s := run { c with registers := { c.registers with pc := 0 } } Image.bus image n
      ⟨s.ending, s.registers, s.messages⟩

def reset (c : Cpu) : Cpu × List Message := ({ c with registers := .powerOn }, [.reset])

def describe (c : Cpu) : String :=
  s!"Cpu \x7b state: {c.registers.describe}, " ++
    s!"config: CpuConfig \x7b unknown_opcodes: {c.policy.name} \x7d \x7d"

end Cpu

end Cpu6502
