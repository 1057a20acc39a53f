/-!
The status byte, which is also a set of flags: eight of them at fixed bit positions. `Status.has`
reads one flag, and a status is determined by its flags (`Status.ext_has`); every operation is
described by what `has` gives afterwards, so nothing else needs to look at bits. Lists of flags
run from the lowest bit up.
-/

namespace Cpu6502

inductive Flag where
  | carry
  | zero
  | interruptDisable
  | decimal
  | breakCommand
  | unused
  | overflow
  | negative
deriving DecidableEq

namespace Flag

def all : List Flag :=
  [.carry, .zero, .interruptDisable, .decimal, .breakCommand, .unused, .overflow, .negative]

def index : Flag → Nat
  | .carry => 0
  | .zero => 1
  | .interruptDisable => 2
  | .decimal => 3
  | .breakCommand => 4
  | .unused => 5
  | .overflow => 6
  | .negative => 7

def mask : Flag → UInt8
  | .carry => 0x01
  | .zero => 0x02
  | .interruptDisable => 0x04
  | .decimal => 0x08
  | .breakCommand => 0x10
  | .unused => 0x20
  | .overflow => 0x40
  | .negative => 0x80

def name : Flag → String
  | .carry => "CARRY"
  | .zero => "ZERO"
  | .interruptDisable => "INTERRUPT_DISABLE"
  | .decimal => "DECIMAL"
  | .breakCommand => "BREAK"
  | .unused => "UNUSED"
  | .overflow => "OVERFLOW"
  | .negative => "NEGATIVE"

def ofName? (s : String) : Option Flag := all.find? (·.name == s)

theorem mem_all (f : Flag) : f ∈ all := by cases f <;> decide

theorem index_lt (f : Flag) : f.index < 8 := by cases f <;> decide

theorem mask_getLsbD (f g : Flag) : f.mask.toBitVec.getLsbD g.index = decide (f = g) := by
  cases f <;> cases g <;> rfl

theorem index_surj {i : Nat} (h : i < 8) : ∃ f : Flag, f.index = i := by
  match i, h with
  | 0, _ => exact ⟨.carry, rfl⟩
  | 1, _ => exact ⟨.zero, rfl⟩
  | 2, _ => exact ⟨.interruptDisable, rfl⟩
  | 3, _ => exact ⟨.decimal, rfl⟩
  | 4, _ => exact ⟨.breakCommand, rfl⟩
  | 5, _ => exact ⟨.unused, rfl⟩
  | 6, _ => exact ⟨.overflow, rfl⟩
  | 7, _ => exact ⟨.negative, rfl⟩

end Flag

structure Status where
  bits : UInt8
deriving DecidableEq

namespace Status

def has (s : Status) (f : Flag) : Bool := s.bits.toBitVec.getLsbD f.index

def single (f : Flag) : Status := ⟨f.mask⟩
def empty : Status := ⟨0⟩
def full : Status := ⟨0xFF⟩

def union (s t : Status) : Status := ⟨s.bits ||| t.bits⟩
def inter (s t : Status) : Status := ⟨s.bits &&& t.bits⟩
def diff (s t : Status) : Status := ⟨s.bits &&& ~~~t.bits⟩
def symmDiff (s t : Status) : Status := ⟨s.bits ^^^ t.bits⟩
def compl (s : Status) : Status := ⟨~~~s.bits⟩

def contains (s t : Status) : Bool := s.inter t == t
def intersects (s t : Status) : Bool := s.inter t != empty
def isEmpty (s : Status) : Bool := s == empty
def isFull (s : Status) : Bool := s == full

def assign (s t : Status) (on : Bool) : Status := if on then s.union t else s.diff t

def put (s : Status) (f : Flag) (on : Bool) : Status := s.assign (single f) on

def ofList (fs : List Flag) : Status := fs.foldr (fun f s => (single f).union s) empty

def powerOn : Status := ofList [.interruptDisable, .unused]

def withResult (s : Status) (v : UInt8) : Status :=
  (s.put .zero (v == 0)).put .negative (v &&& 0x80 != 0)

/-- A byte pulled from the stack: break is never live and the unused bit reads as one. -/
def ofStack (b : UInt8) : Status := ((Status.mk b).put .breakCommand false).put .unused true

def toStack (s : Status) : UInt8 := ((s.put .breakCommand true).put .unused true).bits

def flags (s : Status) : List Flag := Flag.all.filter s.has

def describe (s : Status) : String :=
  match s.flags with
  | [] => "Flags(0x0)"
  | fs => "Flags(" ++ " | ".intercalate (fs.map Flag.name) ++ ")"

theorem ext_has {s t : Status} (h : ∀ f, s.has f = t.has f) : s = t := by
  have hb : s.bits.toBitVec = t.bits.toBitVec := by
    apply BitVec.eq_of_getLsbD_eq
    intro i hi
    obtain ⟨f, rfl⟩ := Flag.index_surj hi
    exact h f
  cases s
  cases t
  simpa only [Status.mk.injEq, ← UInt8.toBitVec_inj] using hb

theorem has_single (f g : Flag) : (single f).has g = decide (f = g) := Flag.mask_getLsbD f g

theorem has_empty (f : Flag) : empty.has f = false := by cases f <;> rfl

theorem has_full (f : Flag) : full.has f = true := by cases f <;> rfl

theorem has_union (s t : Status) (f : Flag) : (s.union t).has f = (s.has f || t.has f) := by
  simp [has, union]

theorem has_inter (s t : Status) (f : Flag) : (s.inter t).has f = (s.has f && t.has f) := by
  simp [has, inter]

theorem has_compl (s : Status) (f : Flag) : s.compl.has f = !s.has f := by
  simp [has, compl, f.index_lt]

theorem has_diff (s t : Status) (f : Flag) : (s.diff t).has f = (s.has f && !t.has f) := by
  simp [has, diff, f.index_lt]

theorem has_symmDiff (s t : Status) (f : Flag) :
    (s.symmDiff t).has f = (s.has f ^^ t.has f) := by
  simp [has, symmDiff]

theorem has_put (s : Status) (f g : Flag) (on : Bool) :
    (s.put f on).has g = if f = g then on else s.has g := by
  cases on <;> by_cases h : f = g <;>
    simp [put, assign, has_union, has_diff, has_single, h]

theorem has_ofList (fs : List Flag) (f : Flag) : (ofList fs).has f = decide (f ∈ fs) := by
  induction fs with
  | nil => simp [ofList, has_empty]
  | cons g fs ih =>
    change ((single g).union (ofList fs)).has f = _
    rw [has_union, has_single, ih]
    simp [eq_comm]

theorem has_withResult (s : Status) (v : UInt8) (f : Flag) :
    (s.withResult v).has f =
      if f = .zero then v == 0 else if f = .negative then v &&& 0x80 != 0 else s.has f := by
  cases f <;> simp [withResult, has_put]

theorem has_ofStack (b : UInt8) (f : Flag) :
    (ofStack b).has f =
      if f = .breakCommand then false else if f = .unused then true else (Status.mk b).has f := by
  cases f <;> simp [ofStack, has_put]

theorem has_toStack (s : Status) (f : Flag) :
    (Status.mk s.toStack).has f =
      if f = .breakCommand then true else if f = .unused then true else s.has f := by
  change ((s.put .breakCommand true).put .unused true).has f = _
  cases f <;> simp [has_put]

end Status

end Cpu6502
