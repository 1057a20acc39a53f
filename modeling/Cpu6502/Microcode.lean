import Cpu6502.Address
import Cpu6502.Bus
import Cpu6502.Fault

/-!
Microcode is what an instruction still has to do, as a tree of bus accesses. Each access carries
the registers that stand if the bus refuses it, so a refusal in the middle of an instruction
leaves a definite register file. `Microcode.exec` runs a tree on a bus and reports what happened;
running `t.bind f` is running `t` and then what `f` makes of its answer (`exec_bind`).
-/

namespace Cpu6502

inductive Microcode (α : Type) where
  | done (r : Registers) (a : α)
  | fail (r : Registers) (f : Fault)
  | read (r : Registers) (addr : UInt16) (next : UInt8 → Microcode α)
  | write (r : Registers) (addr : UInt16) (value : UInt8) (next : Microcode α)
  | note (m : Message) (next : Microcode α)

structure Outcome (α β : Type) where
  result : Except Fault α
  registers : Registers
  memory : β
  accesses : List Access
  messages : List Message

namespace Outcome

variable {α β γ : Type}

def after (a : Access) (o : Outcome α β) : Outcome α β := { o with accesses := a :: o.accesses }

def noting (ms : List Message) (o : Outcome α β) : Outcome α β :=
  { o with messages := ms ++ o.messages }

def andThen (o : Outcome α β) (f : α → Registers → β → Outcome γ β) : Outcome γ β :=
  match o.result with
  | .ok a =>
      let p := f a o.registers o.memory
      { p with accesses := o.accesses ++ p.accesses, messages := o.messages ++ p.messages }
  | .error e => { o with result := .error e }

theorem after_andThen (a : Access) (o : Outcome α β) (f : α → Registers → β → Outcome γ β) :
    (o.after a).andThen f = (o.andThen f).after a := by
  unfold andThen after
  cases o.result <;> rfl

theorem noting_andThen (ms : List Message) (o : Outcome α β)
    (f : α → Registers → β → Outcome γ β) :
    (o.noting ms).andThen f = (o.andThen f).noting ms := by
  unfold andThen noting
  cases o.result <;> simp

end Outcome

namespace Microcode

variable {α β γ : Type}

def bind : Microcode α → (α → Registers → Microcode γ) → Microcode γ
  | .done r a, f => f a r
  | .fail r e, _ => .fail r e
  | .read r addr next, f => .read r addr fun v => (next v).bind f
  | .write r addr value next, f => .write r addr value (next.bind f)
  | .note m next, f => .note m (next.bind f)

/-- A read needs a mapped address and a write a writable one; the first refusal is the end. -/
def exec (bus : Bus β) : Microcode α → β → Outcome α β
  | .done r a, b => ⟨.ok a, r, b, [], []⟩
  | .fail r e, b => ⟨.error e, r, b, [], []⟩
  | .read r addr next, b =>
      if bus.mapped b addr then
        let v := bus.read b addr
        ((next v).exec bus b).after (.read addr v)
      else ⟨.error (.outOfBounds addr), r, b, [], []⟩
  | .write r addr value next, b =>
      if bus.writable b addr then
        let ms := bus.report b addr value
        ((next.exec bus (bus.write b addr value)).after (.write addr value)).noting ms
      else ⟨.error (.outOfBounds addr), r, b, [], []⟩
  | .note m next, b => (next.exec bus b).noting [m]

theorem exec_bind (bus : Bus β) (t : Microcode α) (f : α → Registers → Microcode γ) (b : β) :
    (t.bind f).exec bus b = (t.exec bus b).andThen fun a r b => (f a r).exec bus b := by
  induction t generalizing b with
  | done r a => simp [bind, exec, Outcome.andThen]
  | fail r e => simp [bind, exec, Outcome.andThen]
  | read r addr next ih =>
    simp only [bind, exec]
    split
    · rw [ih, Outcome.after_andThen]
    · rfl
  | write r addr value next ih =>
    simp only [bind, exec]
    split
    · rw [ih, Outcome.noting_andThen, Outcome.after_andThen]
    · rfl
  | note m next ih =>
    simp only [bind, exec]
    rw [ih, Outcome.noting_andThen]

theorem bind_done (t : Microcode α) : t.bind (fun a r => .done r a) = t := by
  induction t with
  | done r a => rfl
  | fail r e => rfl
  | read r addr next ih => simp only [bind, ih]
  | write r addr value next ih => simp only [bind, ih]
  | note m next ih => simp only [bind, ih]

theorem bind_assoc {δ : Type} (t : Microcode α) (f : α → Registers → Microcode γ)
    (g : γ → Registers → Microcode δ) :
    (t.bind f).bind g = t.bind fun a r => (f a r).bind g := by
  induction t with
  | done r a => rfl
  | fail r e => rfl
  | read r addr next ih => simp only [bind, ih]
  | write r addr value next ih => simp only [bind, ih]
  | note m next ih => simp only [bind, ih]

end Microcode

def Micro (α : Type) : Type := Registers → Microcode α

namespace Micro

instance : Monad Micro where
  pure a := fun r => .done r a
  bind m f := fun r => (m r).bind f

instance : LawfulMonad Micro := LawfulMonad.mk' Micro
  (fun m => funext fun r => (m r).bind_done)
  (fun _ _ => rfl)
  (fun m f g => funext fun r => (m r).bind_assoc f g)

def registers : Micro Registers := fun r => .done r r

def update (f : Registers → Registers) : Micro Unit := fun r => .done (f r) ()

def raise {α : Type} (f : Fault) : Micro α := fun r => .fail r f

def note (m : Message) : Micro Unit := fun r => .note m (.done r ())

def read (addr : UInt16) : Micro UInt8 := fun r => .read r addr fun v => .done r v

def write (addr : UInt16) (value : UInt8) : Micro Unit := fun r =>
  .write r addr value (.done r ())

def fetch : Micro UInt8 := do
  let v ← read (← registers).pc
  update fun r => { r with pc := r.pc + 1 }
  return v

def fetchWord : Micro UInt16 := do
  let lo ← fetch
  let hi ← fetch
  return wordOf lo hi

def push (value : UInt8) : Micro Unit := do
  write (stackAddress (← registers).sp) value
  update fun r => { r with sp := r.sp - 1 }

def pull : Micro UInt8 := do
  update fun r => { r with sp := r.sp + 1 }
  read (stackAddress (← registers).sp)

def pushWord (w : UInt16) : Micro Unit := do
  push (highByte w)
  push (lowByte w)

def pullWord : Micro UInt16 := do
  let lo ← pull
  let hi ← pull
  return wordOf lo hi

end Micro

end Cpu6502
