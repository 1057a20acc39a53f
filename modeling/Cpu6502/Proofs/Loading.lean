import Mathlib.Order.Bounds.Basic
import Cpu6502.FlatMemory
import Cpu6502.Proofs.Course

/-!
Bytes loaded into memory, as many as there are. The cursor goes around the top as often as it has to, and
a later lap writes over an earlier one, so a cell is left with the last byte that was aimed at it
(`FlatMemory.load_cases`). A load can be broken off after any byte and taken up again where its cursor
is (`FlatMemory.load_append`), down to single writes.
-/

namespace Cpu6502.FlatMemory

def aimed (start addr : UInt16) (n : Nat) : Set Nat :=
  {i | i < n ∧ (start.toNat + i) % 65536 = addr.toNat}

variable {start addr : UInt16} {i n : Nat}

theorem mem_aimed :
    i ∈ aimed start addr n ↔ i < n ∧ (start.toNat + i) % 65536 = addr.toNat := Iff.rfl

theorem zero_mem_aimed : 0 ∈ aimed start addr (n + 1) ↔ start = addr := by
  have hstart : (start.toNat + 0) % 65536 = start.toNat := Nat.mod_eq_of_lt start.toNat_lt
  rw [mem_aimed, hstart, UInt16.toNat_inj]
  exact and_iff_right (Nat.succ_pos n)

theorem succ_mem_aimed : i + 1 ∈ aimed start addr (n + 1) ↔ i ∈ aimed (start + 1) addr n := by
  have hnext : ((start + 1).toNat + i) % 65536 = (start.toNat + (i + 1)) % 65536 := by
    rw [UInt16.toNat_add, UInt16.toNat_one]
    omega
  rw [mem_aimed, mem_aimed, hnext, Nat.add_lt_add_iff_right]

theorem isGreatest_succ (h : IsGreatest (aimed (start + 1) addr n) i) :
    IsGreatest (aimed start addr (n + 1)) (i + 1) := by
  refine ⟨succ_mem_aimed.mpr h.1, ?_⟩
  rintro (_ | j) hj
  · exact Nat.zero_le _
  · exact Nat.succ_le_succ (h.2 (succ_mem_aimed.mp hj))

theorem isGreatest_zero (h : aimed (start + 1) addr n = ∅) (haddr : start = addr) :
    IsGreatest (aimed start addr (n + 1)) 0 := by
  refine ⟨zero_mem_aimed.mpr haddr, ?_⟩
  rintro (_ | j) hj
  · exact Nat.le_refl 0
  · exact absurd (succ_mem_aimed.mp hj) (h ▸ Set.notMem_empty j)

theorem aimed_eq_empty (h : aimed (start + 1) addr n = ∅) (haddr : start ≠ addr) :
    aimed start addr (n + 1) = ∅ := by
  refine Set.eq_empty_of_forall_notMem ?_
  rintro (_ | j) hj
  · exact haddr (zero_mem_aimed.mp hj)
  · exact absurd (succ_mem_aimed.mp hj) (h ▸ Set.notMem_empty j)

theorem load_cases (m : FlatMemory) (start addr : UInt16) (vs : List UInt8) :
    (∃ i, IsGreatest (aimed start addr vs.length) i ∧ vs[i]? = some ((m.load start vs).read addr)) ∨
      aimed start addr vs.length = ∅ ∧ (m.load start vs).read addr = m.read addr := by
  induction vs generalizing m start with
  | nil => exact .inr ⟨Set.eq_empty_of_forall_notMem fun i hi => Nat.not_lt_zero i hi.1, rfl⟩
  | cons v vs ih =>
    rw [List.length_cons, load]
    -- the first byte stays only if none of the others is aimed where it is
    rcases ih (m.write start v) (start + 1) with ⟨i, hi, hread⟩ | ⟨hnone, hread⟩
    · exact .inl ⟨i + 1, isGreatest_succ hi, hread⟩
    · rw [hread, read_write]
      by_cases haddr : start = addr
      · rw [if_pos haddr]
        exact .inl ⟨0, isGreatest_zero hnone haddr, rfl⟩
      · rw [if_neg haddr]
        exact .inr ⟨aimed_eq_empty hnone haddr, rfl⟩

theorem load_append (m : FlatMemory) (start : UInt16) (vs ws : List UInt8) :
    m.load start (vs ++ ws) = (m.load start vs).load (start + UInt16.ofNat vs.length) ws := by
  induction vs generalizing m start with
  | nil =>
    have hstart : start + UInt16.ofNat 0 = start := UInt16.add_zero start
    rw [List.length_nil, hstart]
    rfl
  | cons v vs ih =>
    rw [List.cons_append, load, load, ih, List.length_cons, add_ofNat_succ]

def writes (start : UInt16) (vs : List UInt8) : List Access :=
  vs.mapIdx fun i v => .write (start + UInt16.ofNat i) v

theorem writes_cons (start : UInt16) (v : UInt8) (vs : List UInt8) :
    writes start (v :: vs) = .write start v :: writes (start + 1) vs := by
  have hstart : start + UInt16.ofNat 0 = start := UInt16.add_zero start
  rw [writes, List.mapIdx_cons, hstart]
  simp only [add_ofNat_succ]
  rfl

theorem load_eq_writes (m : FlatMemory) (start : UInt16) (vs : List UInt8) :
    m.load start vs = (writes start vs).foldl bus.served m := by
  induction vs generalizing m start with
  | nil => rfl
  | cons v vs ih =>
    rw [writes_cons, load, ih]
    rfl

/-- After a load of any length every cell holds the last byte that was aimed at it, and a cell at which
none was is left alone. So a load is the loads of its parts, each where the last one has left off, and
comes to one write for each byte, from the first to the last. -/
theorem load_keeps_last (m : FlatMemory) (start : UInt16) (vs : List UInt8) :
    (∀ addr, (∃ i, IsGreatest (aimed start addr vs.length) i ∧
          vs[i]? = some ((m.load start vs).read addr)) ∨
        aimed start addr vs.length = ∅ ∧ (m.load start vs).read addr = m.read addr) ∧
      (∀ ws, m.load start (vs ++ ws) =
        (m.load start vs).load (start + UInt16.ofNat vs.length) ws) ∧
      m.load start vs = (writes start vs).foldl bus.served m :=
  ⟨fun addr => load_cases m start addr vs, load_append m start vs, load_eq_writes m start vs⟩

end Cpu6502.FlatMemory
