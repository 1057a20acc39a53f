import Cpu6502.Hex
import Cpu6502.Mnemonic

/-!
Instructions and the bytes that encode them. `decode` and `Instruction.encode?` are inverse to each
other (`encode?_eq_some_iff`); the bytes that `decode` does not know are undocumented.
-/

namespace Cpu6502

structure Instruction where
  mnemonic : Mnemonic
  mode : AddressingMode
deriving DecidableEq

namespace Instruction

def size (i : Instruction) : Nat := 1 + i.mode.operandBytes

def table : List (UInt8 × Instruction) :=
  Mnemonic.all.flatMap fun m => m.encodings.map fun e => (e.1, ⟨m, e.2⟩)

def encode? (i : Instruction) : Option UInt8 :=
  (i.mnemonic.encodings.find? (·.2 == i.mode)).map (·.1)

theorem mem_table_iff {c : UInt8} {i : Instruction} :
    (c, i) ∈ table ↔ (c, i.mode) ∈ i.mnemonic.encodings := by
  constructor
  · intro h
    obtain ⟨m, _, h⟩ := List.mem_flatMap.mp h
    obtain ⟨e, he, h⟩ := List.mem_map.mp h
    cases h
    exact he
  · intro h
    exact List.mem_flatMap.mpr ⟨_, Mnemonic.mem_all _, List.mem_map.mpr ⟨_, h, rfl⟩⟩

theorem table_length : table.length = 151 := by decide +kernel

theorem table_codes_nodup : (table.map (·.1)).Nodup := by
  have hn : ((table.map (·.1)).map UInt8.toNat).Nodup := by decide +kernel
  exact List.Pairwise.of_map UInt8.toNat (fun _ _ h he => h (congrArg UInt8.toNat he)) hn

theorem encodings_modes_nodup (m : Mnemonic) : (m.encodings.map (·.2)).Nodup := by
  cases m <;> decide

end Instruction

theorem find?_key_eq_some_iff {α κ : Type} [DecidableEq κ] {key : α → κ} {l : List α}
    (hl : (l.map key).Nodup) {k : κ} {a : α} :
    l.find? (key · == k) = some a ↔ a ∈ l ∧ key a = k := by
  induction l with
  | nil => simp
  | cons b l ih =>
    rw [List.map_cons, List.nodup_cons] at hl
    by_cases hb : key b = k
    · have hne : a ∈ l → key a ≠ k := fun ha he =>
        hl.1 (List.mem_map.mpr ⟨a, ha, he.trans hb.symm⟩)
      simp only [hb, List.find?_cons_of_pos, beq_self_eq_true, Option.some.injEq, List.mem_cons]
      constructor
      · rintro rfl
        exact ⟨.inl rfl, hb⟩
      · rintro ⟨rfl | ha, he⟩
        · rfl
        · exact absurd he (hne ha)
    · rw [List.find?_cons_of_neg (by simpa using hb), ih hl.2, List.mem_cons]
      constructor
      · rintro ⟨ha, he⟩
        exact ⟨.inr ha, he⟩
      · rintro ⟨rfl | ha, he⟩
        · exact absurd he hb
        · exact ⟨ha, he⟩

def decode (c : UInt8) : Option Instruction := (Instruction.table.find? (·.1 == c)).map (·.2)

theorem decode_eq_some_iff {c : UInt8} {i : Instruction} :
    decode c = some i ↔ (c, i.mode) ∈ i.mnemonic.encodings := by
  rw [← Instruction.mem_table_iff, decode, Option.map_eq_some_iff]
  constructor
  · rintro ⟨⟨d, j⟩, hf, rfl⟩
    obtain ⟨hm, rfl⟩ := (find?_key_eq_some_iff Instruction.table_codes_nodup).mp hf
    exact hm
  · intro h
    exact ⟨(c, i), (find?_key_eq_some_iff Instruction.table_codes_nodup).mpr ⟨h, rfl⟩, rfl⟩

theorem Instruction.of_decode {P : Instruction → Prop} {c : UInt8} {i : Instruction}
    (hd : decode c = some i) (h : ∀ m : Mnemonic, ∀ e ∈ m.encodings, P ⟨m, e.2⟩) : P i :=
  h i.mnemonic _ (decode_eq_some_iff.mp hd)

theorem mode_mem_of_decode {c : UInt8} {m : Mnemonic} {mode : AddressingMode}
    (hd : decode c = some ⟨m, mode⟩) : mode ∈ m.encodings.map (·.2) :=
  List.mem_map_of_mem (decode_eq_some_iff.mp hd)

theorem decode_eq_none_iff {c : UInt8} : decode c = none ↔ c ∉ Instruction.table.map (·.1) := by
  rw [decode, Option.map_eq_none_iff, List.find?_eq_none, List.mem_map]
  constructor
  · intro h hc
    obtain ⟨e, he, rfl⟩ := hc
    exact h e he (beq_self_eq_true e.1)
  · intro h e he hc
    exact h ⟨e, he, eq_of_beq hc⟩

theorem encode?_eq_some_iff {c : UInt8} {i : Instruction} :
    i.encode? = some c ↔ decode c = some i := by
  rw [decode_eq_some_iff, Instruction.encode?, Option.map_eq_some_iff]
  constructor
  · rintro ⟨⟨d, mode⟩, hf, rfl⟩
    obtain ⟨hm, he⟩ := (find?_key_eq_some_iff (Instruction.encodings_modes_nodup _)).mp hf
    cases he
    exact hm
  · intro h
    exact ⟨(c, i.mode),
      (find?_key_eq_some_iff (Instruction.encodings_modes_nodup _)).mpr ⟨h, rfl⟩, rfl⟩

/-- A byte in opcode position, documented or not. -/
structure Opcode where
  code : UInt8
  instruction : Option Instruction
deriving DecidableEq

namespace Opcode

def ofCode (c : UInt8) : Opcode := ⟨c, decode c⟩

def documented (o : Opcode) : Bool := o.instruction.isSome

def mnemonic (o : Opcode) : String :=
  match o.instruction with
  | some i => i.mnemonic.name
  | none => "???"

def mode (o : Opcode) : AddressingMode :=
  match o.instruction with
  | some i => i.mode
  | none => .implicit

def size (o : Opcode) : Nat :=
  match o.instruction with
  | some i => i.size
  | none => 1

def affects (o : Opcode) : Status :=
  match o.instruction with
  | some i => .ofList i.mnemonic.affects
  | none => .empty

def describe (o : Opcode) : String :=
  s!"Opcode \x7b code: 0x{Hex.byte o.code}, mnemonic: \"{o.mnemonic}\", mode: {o.mode.name}, " ++
    s!"size_bytes: {o.size}, affects: {o.affects.describe} \x7d"

def all : List Opcode := (List.range 256).map fun n => ofCode (UInt8.ofNat n)

def named (name : String) : List Opcode := all.filter (·.mnemonic == name)

end Opcode

end Cpu6502
