import Cpu6502.Bus

/-!
Sixty-four kilobytes of memory. `read` is the view: memories that read alike are equal
(`FlatMemory.ext_read`), and a write changes the one cell it names. `load` stores bytes from an
address upward and wraps past the top. As a bus, memory is all readable and writable, or `guarded`
by fixed permissions.
-/

namespace Cpu6502

theorem address_lt (a : UInt16) : a.toNat < 65536 := a.toNat_lt

structure FlatMemory where
  cells : Vector UInt8 65536
deriving DecidableEq

namespace FlatMemory

def zeroed : FlatMemory := ⟨Vector.replicate 65536 0⟩

def read (m : FlatMemory) (a : UInt16) : UInt8 :=
  have := address_lt a
  m.cells[a.toNat]

def write (m : FlatMemory) (a : UInt16) (v : UInt8) : FlatMemory :=
  ⟨m.cells.set a.toNat v (address_lt a)⟩

def load (m : FlatMemory) (start : UInt16) : List UInt8 → FlatMemory
  | [] => m
  | v :: vs => (m.write start v).load (start + 1) vs

def guarded (mapped writable : UInt16 → Bool) : Bus FlatMemory where
  read := read
  write := write
  mapped _ := mapped
  writable _ := writable

def bus : Bus FlatMemory where
  read := read
  write := write

theorem read_zeroed (a : UInt16) : zeroed.read a = 0 := by simp [zeroed, read]

theorem read_write (m : FlatMemory) (a b : UInt16) (v : UInt8) :
    (m.write a v).read b = if a = b then v else m.read b := by
  simp [read, write, Vector.getElem_set, UInt16.toNat_inj]

theorem ext_read {m n : FlatMemory} (h : ∀ a, m.read a = n.read a) : m = n := by
  cases m with
  | mk c =>
    cases n with
    | mk d =>
      congr
      apply Vector.ext
      intro i hi
      have := h (UInt16.ofNat i)
      simpa [read, UInt16.toNat_ofNat_of_lt' hi] using this

end FlatMemory

end Cpu6502
