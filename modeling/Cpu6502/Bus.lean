import Cpu6502.Message

/-!
A bus is what the processor sees of the machine around it: functions on a value of any type
`β`, so that devices, holes and read-only regions are all of one kind. Reading leaves the value as
it is. A read is answered where the address is mapped and a write lands where it is writable; both
may depend on the contents, and unless a bus says otherwise every address is mapped and the mapped
ones are writable. What a bus itself logs when it takes a write is its `report`.
-/

namespace Cpu6502

structure Bus (β : Type) where
  read : β → UInt16 → UInt8
  write : β → UInt16 → UInt8 → β
  mapped : β → UInt16 → Bool := fun _ _ => true
  writable : β → UInt16 → Bool := mapped
  report : β → UInt16 → UInt8 → List Message := fun _ _ _ => []

inductive Access where
  | read (addr : UInt16) (value : UInt8)
  | write (addr : UInt16) (value : UInt8)
deriving DecidableEq

namespace Bus

def unrestricted {β : Type} (bus : Bus β) : Bus β :=
  { bus with mapped := fun _ _ => true, writable := fun _ _ => true }

end Bus

end Cpu6502
