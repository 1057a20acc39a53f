import Cpu6502.Proofs.Code
import Cpu6502.Proofs.Frame
import Cpu6502.Proofs.LittleEndian

/-!
Sums and differences of numbers of any length. A column adds one byte of each number with the carry
from below and stores the byte of the sum. What a list of columns leaves is found column by column:
the stored bytes with the last carry are the sum (`Operation.columns_value`), and overflow is that
of the whole (`Operation.columns_overflow`). A difference is the sum with the complement and a carry
(`Operation.columns_spec`). The code for columns runs through them from the lowest up
(`Operation.reaches_columns`), with nothing in between that disturbs the carry.
-/

namespace Cpu6502

structure Column where
  x : UInt8
  y : UInt8
  addr : UInt16

inductive Operation where
  | add
  | subtract

namespace Operation

def eval : Operation → Int → Int → Int
  | add, x, y => x + y
  | subtract, x, y => x - y

def Carries (n x y : Nat) : Operation → Prop
  | add => 256 ^ n ≤ x + y
  | subtract => y ≤ x

instance (n x y : Nat) (op : Operation) : Decidable (op.Carries n x y) :=
  match op with
  | add => inferInstanceAs (Decidable (256 ^ n ≤ x + y))
  | subtract => inferInstanceAs (Decidable (y ≤ x))

def carryIn : Operation → Bool
  | add => false
  | subtract => true

def addend (v : UInt8) : Operation → UInt8
  | add => v
  | subtract => ~~~v

section Addend

variable {op : Operation} {x : Nat} {vs : List UInt8}

theorem addend_value :
    ((x + littleEndian (vs.map (op.addend ·)) + op.carryIn.toNat : Nat) : Int) =
      op.eval x (littleEndian vs) + (256 ^ vs.length : Nat) * op.carryIn.toNat := by
  cases op with
  | add => simp [addend, carryIn, eval]
  | subtract =>
    have hsum := littleEndian_complement vs
    simp only [addend, carryIn, eval, Bool.toNat_true]
    omega

theorem addend_carries :
    op.Carries vs.length x (littleEndian vs) ↔
      256 ^ vs.length ≤ x + littleEndian (vs.map (op.addend ·)) + op.carryIn.toNat := by
  cases op with
  | add => simp [addend, carryIn, Carries]
  | subtract =>
    have hsum := littleEndian_complement vs
    simp only [addend, carryIn, Carries, Bool.toNat_true]
    omega

theorem addend_signed (z : Int) (hvs : vs ≠ []) :
    z + littleEndianSigned (vs.map (op.addend ·)) + op.carryIn.toNat =
      op.eval z (littleEndianSigned vs) := by
  cases op with
  | add => simp [addend, carryIn, eval]
  | subtract =>
    have hneg := littleEndianSigned_complement hvs
    simp only [addend, carryIn, eval, Bool.toNat_true, hneg]
    omega

theorem carry_of_sum {v p t : Nat} {on : Bool} (hv : v < p) (h : v + p * on.toNat = t) :
    on = true ↔ p ≤ t := by
  subst h
  cases on <;> simp [hv]

end Addend

def column (op : Operation) (s : Registers × FlatMemory) (col : Column) :
    Registers × FlatMemory :=
  let r := (s.1.loadA col.x).addWithCarry (op.addend col.y)
  ({ r with pc := s.1.pc + 7 }, s.2.write col.addr r.a)

def columns (op : Operation) (cols : List Column) (s : Registers × FlatMemory) :
    Registers × FlatMemory := cols.foldl op.column s

variable (op : Operation) {cols : List Column} (s : Registers × FlatMemory)

theorem column_value (col : Column) :
    ((op.column s col).2.read col.addr).toNat +
        256 * ((op.column s col).1.status.has .carry).toNat =
      col.x.toNat + (op.addend col.y).toNat + (s.1.status.has .carry).toNat := by
  have hsum := (s.1.loadA col.x).addWithCarry_value (op.addend col.y)
  have hread : (op.column s col).2.read col.addr = (op.column s col).1.a := by
    simp only [column, FlatMemory.read_write, if_true]
  rw [Registers.loadA_carry] at hsum
  rw [hread]
  exact hsum

theorem column_overflow (col : Column) :
    (op.column s col).1.status.has .overflow = true ↔
      ¬ Representable 1 (signed 1 col.x.toNat + signed 1 (op.addend col.y).toNat +
        (s.1.status.has .carry).toNat) := by
  have hover := (s.1.loadA col.x).addWithCarry_overflow (op.addend col.y)
  rw [Registers.loadA_carry] at hover
  exact hover

theorem columns_read {a : UInt16} (ha : a ∉ cols.map (·.addr)) :
    (op.columns cols s).2.read a = s.2.read a := by
  induction cols generalizing s with
  | nil => rfl
  | cons col cols ih =>
    rw [List.map_cons, List.mem_cons, not_or] at ha
    rw [columns, List.foldl_cons, ← columns, ih _ ha.2, column, FlatMemory.read_write,
      if_neg (Ne.symm ha.1)]

theorem columns_value (h : (cols.map (·.addr)).Nodup) :
    littleEndian (cols.map ((op.columns cols s).2.read ·.addr)) +
        256 ^ cols.length * ((op.columns cols s).1.status.has .carry).toNat =
      littleEndian (cols.map (·.x)) + littleEndian (cols.map (op.addend ·.y)) +
        (s.1.status.has .carry).toNat := by
  induction cols generalizing s with
  | nil => simp [columns, littleEndian]
  | cons col cols ih =>
    rw [List.map_cons, List.nodup_cons] at h
    have hcons : op.columns (col :: cols) s = op.columns cols (op.column s col) := rfl
    -- the columns above do not write where the first one has
    have hhead : (op.columns cols (op.column s col)).2.read col.addr =
        (op.column s col).2.read col.addr := op.columns_read _ h.1
    have hcol := op.column_value s col
    have hrest := ih (op.column s col) h.2
    simp only [hcons, List.map_cons, littleEndian_cons, List.length_cons, pow_succ, hhead]
    linarith

theorem columns_overflow (hne : cols ≠ []) :
    (op.columns cols s).1.status.has .overflow = true ↔
      ¬ Representable cols.length
        (littleEndianSigned (cols.map (·.x)) + littleEndianSigned (cols.map (op.addend ·.y)) +
          (s.1.status.has .carry).toNat) := by
  induction cols generalizing s with
  | nil => exact absurd rfl hne
  | cons col cols ih =>
    by_cases hnil : cols = []
    · subst hnil
      exact op.column_overflow s col
    · have hlen : cols.length ≠ 0 := mt List.length_eq_zero_iff.mp hnil
      have hcol := op.column_value s col
      -- what is stored in the first column, and the sum of the others with its carry
      have hsum : littleEndianSigned ((col :: cols).map (·.x)) +
          littleEndianSigned ((col :: cols).map (op.addend ·.y)) + (s.1.status.has .carry).toNat =
          ((op.column s col).2.read col.addr).toNat +
            256 * (littleEndianSigned (cols.map (·.x)) +
              littleEndianSigned (cols.map (op.addend ·.y)) +
              ((op.column s col).1.status.has .carry).toNat) := by
        rw [List.map_cons, List.map_cons, littleEndianSigned_cons _ (by simpa using hnil),
          littleEndianSigned_cons _ (by simpa using hnil)]
        omega
      rw [hsum, List.length_cons, representable_cons hlen]
      exact ih _ hnil

theorem columns_spec (hne : cols ≠ []) (h : (cols.map (·.addr)).Nodup)
    (hcarry : s.1.status.has .carry = op.carryIn) :
    let n := cols.length
    let xs := cols.map (·.x)
    let ys := cols.map (·.y)
    let t := op.columns cols s
    (littleEndian (cols.map (t.2.read ·.addr)) : Int) =
        op.eval (littleEndian xs) (littleEndian ys) % 256 ^ n ∧
      (t.1.status.has .carry = true ↔ op.Carries n (littleEndian xs) (littleEndian ys)) ∧
      (t.1.status.has .overflow = true ↔
        ¬ Representable n (op.eval (littleEndianSigned xs) (littleEndianSigned ys))) := by
  intro n xs ys t
  have hlt := littleEndian_lt (cols.map (t.2.read ·.addr))
  have hsum := op.columns_value s h
  have hover := op.columns_overflow s hne
  have hys : cols.map (op.addend ·.y) = ys.map (op.addend ·) := by
    rw [List.map_map, Function.comp_def]
  have hn : n = ys.length := (List.length_map _).symm
  rw [List.length_map] at hlt
  rw [hys, hcarry] at hsum hover
  refine ⟨?_, ?_, ?_⟩
  · have hmod : (littleEndian (cols.map (t.2.read ·.addr)) : Int) =
        ((littleEndian xs + littleEndian (ys.map (op.addend ·)) + op.carryIn.toNat : Nat) : Int) %
          (256 ^ n : Nat) := by
      rw [← hsum, ← Int.natCast_mod, Nat.add_mul_mod_self_left, Nat.mod_eq_of_lt hlt]
    rw [hmod, addend_value, ← hn, Int.add_mul_emod_self_left, Nat.cast_pow, Nat.cast_ofNat]
  · rw [hn, addend_carries, ← hn]
    exact carry_of_sum hlt hsum
  · rw [← addend_signed _ (by simpa [ys] using hne)]
    exact hover

def start : Operation → Line
  | add => .clc
  | subtract => .sec

def combine (v : UInt8) : Operation → Line
  | add => .adc v
  | subtract => .sbc v

def columnCode (op : Operation) (col : Column) : List UInt8 :=
  (Line.lda col.x).bytes ++ (op.combine col.y).bytes ++ (Line.sta col.addr).bytes

def code (op : Operation) (cols : List Column) : List UInt8 :=
  op.start.bytes ++ cols.flatMap op.columnCode ++ Line.brk.bytes

def started (op : Operation) (r : Registers) : Registers :=
  (r.past 1).putFlag .carry op.carryIn

variable {op s}

theorem columnCode_length (col : Column) : (op.columnCode col).length = 7 := by cases op <;> rfl

theorem columnsCode_length (cols : List Column) :
    (cols.flatMap op.columnCode).length = 7 * cols.length := by
  rw [List.length_flatMap]
  simp [columnCode_length, Nat.mul_comm]

theorem code_length (cols : List Column) : (op.code cols).length = 7 * cols.length + 2 := by
  have hstart : op.start.bytes.length = 1 := by cases op <;> rfl
  have hbrk : Line.brk.bytes.length = 1 := rfl
  rw [code, List.length_append, List.length_append, columnsCode_length, hstart, hbrk]
  omega

example : add.code [⟨0xFF, 0x01, 0x0200⟩] =
    [0x18, 0xA9, 0xFF, 0x69, 0x01, 0x8D, 0x00, 0x02, 0x00] := rfl

theorem reaches_start {c : Cpu} {m : FlatMemory} (h : m.Contains c.registers.pc op.start.bytes) :
    c.Reaches FlatMemory.bus 1 m { c with registers := op.started c.registers } m := by
  cases op with
  | add => exact Line.reaches_internal h rfl
  | subtract => exact Line.reaches_internal h rfl

theorem reaches_combine {c : Cpu} {m : FlatMemory} {v : UInt8}
    (h : m.Contains c.registers.pc (op.combine v).bytes) :
    c.Reaches FlatMemory.bus 1 m
      { c with registers := (c.registers.past 2).addWithCarry (op.addend v) } m := by
  cases op with
  | add =>
    have ha : (Line.adc v).instruction.mnemonic.action = .consume .addWithCarry := rfl
    exact Line.reaches_immediate h rfl rfl ha
  | subtract =>
    have ha : (Line.sbc v).instruction.mnemonic.action = .consume .subtractWithCarry := rfl
    have hreach := Line.reaches_immediate h rfl rfl ha
    exact hreach

theorem reaches_column {c : Cpu} {m : FlatMemory} {col : Column}
    (h : m.Contains c.registers.pc (op.columnCode col)) :
    c.Reaches FlatMemory.bus 3 m { c with registers := (op.column (c.registers, m) col).1 }
      (op.column (c.registers, m) col).2 := by
  have hlength : (op.combine col.y).bytes.length = 2 := by cases op <;> rfl
  rw [columnCode, List.append_assoc, FlatMemory.contains_append, FlatMemory.contains_append,
    hlength] at h
  obtain ⟨hlda, hcombine, hsta⟩ := h
  let r₁ := (c.registers.past 2).loadA col.x
  let r₂ := (r₁.past 2).addWithCarry (op.addend col.y)
  have hpc₁ : r₁.pc = c.registers.pc + 2 := by simp [r₁, Registers.past_eq, Registers.loadA]
  have hpc₂ : r₂.pc = c.registers.pc + 2 + 2 := by
    rw [← hpc₁]
    simp [r₂, Registers.past_eq, Registers.addWithCarry, Registers.putFlag, Registers.loadA]
  have h₁ : c.Reaches FlatMemory.bus 1 m { c with registers := r₁ } m :=
    Line.reaches_immediate hlda rfl rfl rfl
  have h₂ : ({ c with registers := r₁ } : Cpu).Reaches FlatMemory.bus 1 m
      { c with registers := r₂ } m := reaches_combine (by rw [hpc₁]; exact hcombine)
  have h₃ : ({ c with registers := r₂ } : Cpu).Reaches FlatMemory.bus 1 m
      { c with registers := r₂.past 3 } (m.write col.addr (r₂.past 3).a) :=
    Line.reaches_store (by rw [hpc₂]; exact hsta) rfl rfl rfl
  have hcol : op.column (c.registers, m) col = (r₂.past 3, m.write col.addr (r₂.past 3).a) := by
    simp [column, r₂, r₁, Registers.past_eq, Registers.loadA, Registers.addWithCarry,
      Registers.putFlag, UInt16.add_assoc]
  rw [hcol]
  exact h₁.trans (h₂.trans h₃)

theorem reaches_columns {c : Cpu} {m : FlatMemory} {rest : List UInt8}
    (h : m.Contains c.registers.pc (cols.flatMap op.columnCode ++ rest))
    (hapart : ∀ col ∈ cols, ∀ k < 7 * cols.length + rest.length,
      col.addr ≠ c.registers.pc + UInt16.ofNat k) :
    let t := op.columns cols (c.registers, m)
    c.Reaches FlatMemory.bus (3 * cols.length) m { c with registers := t.1 } t.2 ∧
      t.2.Contains t.1.pc rest := by
  induction cols generalizing c m with
  | nil => exact ⟨.refl c m, h⟩
  | cons col cols ih =>
    rw [List.flatMap_cons, List.append_assoc, FlatMemory.contains_append, columnCode_length] at h
    obtain ⟨hcol, hrest⟩ := h
    have hoff (a) (ha : a ∈ col :: cols) (k) (hk : k < 7 * cols.length + rest.length) :
        a.addr ≠ c.registers.pc + UInt16.ofNat 7 + UInt16.ofNat k := by
      rw [UInt16.add_assoc, ← UInt16.ofNat_add]
      exact hapart a ha (7 + k) (by rw [List.length_cons]; omega)
    let t := op.column (c.registers, m) col
    have hkept : t.2.Contains t.1.pc (cols.flatMap op.columnCode ++ rest) := by
      refine hrest.write (fun k hk => hoff col List.mem_cons_self k ?_) _
      rwa [List.length_append, columnsCode_length] at hk
    obtain ⟨hreach, hcode⟩ := ih (c := { c with registers := t.1 }) hkept
      fun a ha => hoff a (List.mem_cons_of_mem _ ha)
    refine ⟨?_, hcode⟩
    rw [List.length_cons, Nat.mul_succ, Nat.add_comm]
    exact (reaches_column hcol).trans hreach

theorem reaches_code {c : Cpu} {m : FlatMemory} (h : m.Contains c.registers.pc (op.code cols))
    (hapart : ∀ col ∈ cols, ∀ k < (op.code cols).length,
      col.addr ≠ c.registers.pc + UInt16.ofNat k) :
    let t := op.columns cols (op.started c.registers, m)
    c.Reaches FlatMemory.bus (1 + 3 * cols.length) m { c with registers := t.1 } t.2 ∧
      t.2.Contains t.1.pc Line.brk.bytes := by
  have hlength : op.start.bytes.length = 1 := by cases op <;> rfl
  rw [code, List.append_assoc, FlatMemory.contains_append, hlength] at h
  obtain ⟨hstart, hcols⟩ := h
  have hpc : (op.started c.registers).pc = c.registers.pc + UInt16.ofNat 1 := by
    rw [started, Registers.past_eq, Registers.putFlag]
  have hoff (col) (hcol : col ∈ cols) (k) (hk : k < 7 * cols.length + 1) :
      col.addr ≠ (op.started c.registers).pc + UInt16.ofNat k := by
    rw [hpc, UInt16.add_assoc, ← UInt16.ofNat_add]
    exact hapart col hcol (1 + k) (by rw [code_length]; omega)
  rw [← hpc] at hcols
  obtain ⟨hreach, hbrk⟩ :=
    reaches_columns (c := { c with registers := op.started c.registers }) hcols hoff
  exact ⟨(reaches_start hstart).trans hreach, hbrk⟩

theorem step_brk {c : Cpu} {m : FlatMemory} (h : m.Contains c.registers.pc Line.brk.bytes) :
    let o := c.step FlatMemory.bus m
    o.result = .ok .halt ∧ o.registers = c.registers.past 1 ∧ o.memory = m := Line.step_line h

variable (op) in
/-- The code for an operation runs to its end, where it has stored the low bytes of the result and
nothing else; carry and overflow say what the result is beside those bytes. -/
theorem run_code (hne : cols ≠ []) (hdistinct : (cols.map (·.addr)).Nodup) (c : Cpu)
    (m : FlatMemory) (hcode : m.Contains c.registers.pc (op.code cols))
    (hapart : ∀ col ∈ cols, ∀ k < (op.code cols).length,
      col.addr ≠ c.registers.pc + UInt16.ofNat k)
    {k : Nat} (hk : 3 * cols.length + 2 ≤ k) :
    let n := cols.length
    let xs := cols.map (·.x)
    let ys := cols.map (·.y)
    let t := c.run FlatMemory.bus m k
    t.ending = .halted ∧
      (littleEndian (cols.map (t.memory.read ·.addr)) : Int) =
        op.eval (littleEndian xs) (littleEndian ys) % 256 ^ n ∧
      (t.registers.status.has .carry = true ↔
        op.Carries n (littleEndian xs) (littleEndian ys)) ∧
      (t.registers.status.has .overflow = true ↔
        ¬ Representable n (op.eval (littleEndianSigned xs) (littleEndianSigned ys))) ∧
      ∀ a ∉ cols.map (·.addr), t.memory.read a = m.read a := by
  intro n xs ys t
  let u := op.columns cols (op.started c.registers, m)
  obtain ⟨hreach, hbrk⟩ := reaches_code hcode hapart
  obtain ⟨hhalt, hregisters, hmemory⟩ := step_brk (c := { c with registers := u.1 }) hbrk
  obtain ⟨hending, hrun, hend⟩ := hreach.run_halted hhalt (show _ < k by omega)
  have hstatus : t.registers.status = u.1.status := by
    rw [hrun, hregisters, Registers.past_status]
  have hmem : t.memory = u.2 := hend.trans hmemory
  have hcarry : (op.started c.registers).status.has .carry = op.carryIn := by
    simp [started, Registers.putFlag, Status.has_put]
  obtain ⟨hresult, hcarries, hoverflow⟩ :=
    op.columns_spec (op.started c.registers, m) hne hdistinct hcarry
  rw [hstatus, hmem]
  exact ⟨hending, hresult, hcarries, hoverflow, fun a ha => op.columns_read _ ha⟩

theorem run_code_past_largest :
    let cols : List Column := [⟨0xFF, 0x01, 0x0200⟩, ⟨0x7F, 0x00, 0x0300⟩]
    let c : Cpu := { registers := { Registers.powerOn with pc := 0xFFFA, status := .full } }
    let t := c.run FlatMemory.bus (FlatMemory.zeroed.load 0xFFFA (add.code cols)) 8
    t.ending = .halted ∧
      (littleEndian [t.memory.read 0x0200, t.memory.read 0x0300] : Int) = 0x8000 ∧
      t.registers.status.has .carry = false ∧ t.registers.status.has .overflow = true := by
  intro cols c
  have hne : cols ≠ [] := List.cons_ne_nil _ _
  obtain ⟨hending, hresult, hcarries, hoverflow, -⟩ :=
    add.run_code hne (by decide) c (FlatMemory.zeroed.load 0xFFFA (add.code cols))
      (FlatMemory.contains_load (by decide)) (by decide) (k := 8) (by decide)
  refine ⟨hending, hresult.trans (by decide), ?_, hoverflow.mpr (by decide +kernel)⟩
  exact Bool.eq_false_iff.mpr fun h => absurd (hcarries.mp h) (by decide)

end Operation

end Cpu6502
