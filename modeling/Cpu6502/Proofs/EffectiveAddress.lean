import Mathlib.Data.List.TakeWhile
import Cpu6502.Proofs.ProgramCounter

/-!
Effective addresses in integers. `AddressingMode.lookups` are the addresses that a mode reads before it
has its operand and `AddressingMode.reference` is the one that it comes to, both as numbers: sums wrap at
256 where they stay in a page and at 65536 elsewhere. The microcode reads the former up to the first that
is not mapped (`Microcode.exec_reads`), and comes to the latter (`Micro.effectiveAddress_reference`).
-/

namespace Cpu6502

variable {α β : Type}

namespace Microcode

variable {bus : Bus β} {b : β} {t : Microcode α}

theorem exec_accesses_course (bus : Bus β) (t : Microcode α) (b : β) :
    (t.exec bus b).accesses <+: (t.course bus b).map (·.2) := by
  rcases exec_cut bus t b with hfree | ⟨past, r, a, rest, hcourse, haccesses, -⟩
  · refine ⟨[], ?_⟩
    rw [List.append_nil, hfree, exec_unrestricted_accesses]
  · rw [haccesses, hcourse, List.map_append]
    exact List.prefix_append _ _

theorem exec_reads (h : ∀ a ∈ (t.course bus b).map (·.2), a.isWrite = false) :
    let as := (t.course bus b).map (·.2)
    let o := t.exec bus b
    o.memory = b ∧ o.accesses = as.takeWhile (bus.allows b) ∧
      (as.find? (!bus.allows b ·) = none ∧ o = t.exec bus.unrestricted b ∨
        ∃ a, as.find? (!bus.allows b ·) = some a ∧ o.result = .error (.outOfBounds a.addr)) := by
  intro as o
  have hreads : ∀ a ∈ o.accesses, a.isWrite = false := fun a ha =>
    h a ((exec_accesses_course bus t b).subset ha)
  have hmemory : o.memory = b := (exec_memory bus t b).trans (bus.foldl_served_reads b hreads)
  have hallows := (exec_serves bus t b).allows hreads
  refine ⟨hmemory, ?_⟩
  rcases exec_cut bus t b with hfree | ⟨past, r, a, rest, hcourse, haccesses, -, hresult, hrefused⟩
  · have has : o.accesses = as :=
      (congrArg Outcome.accesses hfree).trans (exec_unrestricted_accesses bus t b)
    rw [show (t.exec bus b).accesses = as from has] at hallows
    refine ⟨has.trans (List.takeWhile_eq_self_iff.mpr hallows).symm, .inl ⟨?_, hfree⟩⟩
    simpa using hallows
  · have has : as = o.accesses ++ a :: rest.map (·.2) := by
      rw [show o.accesses = past.map (·.2) from haccesses]
      simp [as, hcourse]
    rw [show (t.exec bus b).memory = b from hmemory] at hrefused
    have hstop : (a :: rest.map (·.2)).takeWhile (bus.allows b) = [] := by simp [hrefused]
    constructor
    · rw [has, List.takeWhile_append_of_pos hallows, hstop, List.append_nil]
    · refine .inr ⟨a, ?_, hresult⟩
      have hnone : o.accesses.find? (!bus.allows b ·) = none := by simpa using hallows
      rw [has, List.find?_append, hnone]
      simp [hrefused]

end Microcode

namespace AddressingMode

variable (read : UInt16 → UInt8) (r : Registers)

def pointerBytes (mode : AddressingMode) : List Nat :=
  let p := r.pc.toNat
  let o := byteAt read p
  let w := wordAt read p (p + 1)
  let j := (o + r.x.toNat) % 256
  match mode with
  | .indirect => [w, 256 * (w / 256) + (w + 1) % 256]
  | .indirectX => [j, (j + 1) % 256]
  | .indirectY => [o, (o + 1) % 256]
  | _ => []

def lookups (mode : AddressingMode) : List Nat :=
  (List.range mode.operandBytes).map (fun k => (r.pc.toNat + k) % 65536) ++ mode.pointerBytes read r

def reference (mode : AddressingMode) : Option Int :=
  let p := r.pc.toNat
  let o := byteAt read p
  let w := wordAt read p (p + 1)
  let j := (o + r.x.toNat) % 256
  match mode with
  | .implicit | .accumulator => none
  | .immediate => some p
  | .zeroPage => some o
  | .zeroPageX => some ((o + r.x.toNat) % 256)
  | .zeroPageY => some ((o + r.y.toNat) % 256)
  | .relative => some ((p + 1 + signed 1 o) % 65536)
  | .absolute => some w
  | .absoluteX => some ((w + r.x.toNat) % 65536)
  | .absoluteY => some ((w + r.y.toNat) % 65536)
  | .indirect => some (wordAt read w (256 * (w / 256) + (w + 1) % 256))
  | .indirectX => some (wordAt read j ((j + 1) % 256))
  | .indirectY => some ((wordAt read o ((o + 1) % 256) + r.y.toNat) % 65536)

theorem toNat_next : (r.pc + 1).toNat = (r.pc.toNat + 1) % 65536 := toNat_add_ofNat r.pc 1

theorem byteAt_operand : byteAt read r.pc.toNat = (read r.pc).toNat :=
  byteAt_eq read (Nat.mod_eq_of_lt r.pc.toNat_lt).symm

theorem wordAt_operand_bytes :
    wordAt read r.pc.toNat (r.pc.toNat + 1) = (wordOf (read r.pc) (read (r.pc + 1))).toNat :=
  wordAt_eq read (Nat.mod_eq_of_lt r.pc.toNat_lt).symm (toNat_next r)

theorem next_in_zeroPage (o : UInt8) :
    256 * (o.toNat / 256) + (o.toNat + 1) % 256 = (o.toNat + 1) % 256 := by
  have ho := o.toNat_lt
  omega

theorem wordAt_zeroPage (o : UInt8) :
    wordAt read o.toNat ((o.toNat + 1) % 256) = (pointee read o.toUInt16).toNat := by
  have hword := wordAt_pointee read o.toUInt16
  rw [UInt8.toNat_toUInt16, next_in_zeroPage] at hword
  exact hword

theorem reference_eq (mode : AddressingMode) :
    mode.reference read r =
      if mode.hasAddress then some ((mode.address read r).toNat : Int) else none := by
  have hbyte := byteAt_operand read r
  have hword := wordAt_operand_bytes read r
  cases mode with
  | implicit | accumulator | immediate => rfl
  | zeroPage | zeroPageX | zeroPageY =>
    rw [reference, hbyte]
    rfl
  | relative =>
    have htarget := toNat_branchTarget (r.pc + 1) (read r.pc)
    rw [toNat_next] at htarget
    rw [reference, hbyte]
    refine congrArg some (Eq.trans ?_ htarget.symm)
    omega
  | absolute | absoluteX | absoluteY =>
    rw [reference, hword]
    rfl
  | indirect =>
    rw [reference, hword, wordAt_pointee]
    rfl
  | indirectX =>
    rw [reference, hbyte, ← UInt8.toNat_add, wordAt_zeroPage]
    rfl
  | indirectY =>
    rw [reference, hbyte, wordAt_zeroPage]
    rfl

theorem ofNat_pointer (p : UInt16) :
    [p.toNat, 256 * (p.toNat / 256) + (p.toNat + 1) % 256].map UInt16.ofNat = [p, nextInPage p] := by
  rw [← toNat_nextInPage]
  simp

theorem ofNat_zeroPage_pointer (o : UInt8) :
    [o.toNat, (o.toNat + 1) % 256].map UInt16.ofNat = [o.toUInt16, nextInPage o.toUInt16] := by
  have hpointer := ofNat_pointer o.toUInt16
  rw [UInt8.toNat_toUInt16, next_in_zeroPage] at hpointer
  exact hpointer

theorem pointerBytes_eq (mode : AddressingMode) :
    ((mode.pointerBytes read r).map UInt16.ofNat).map (Access.get read) =
      mode.pointerAccesses read r := by
  have hbyte := byteAt_operand read r
  have hword := wordAt_operand_bytes read r
  cases mode with
  | indirect =>
    rw [pointerBytes, hword, ofNat_pointer]
    rfl
  | indirectX =>
    rw [pointerBytes, hbyte, ← UInt8.toNat_add, ofNat_zeroPage_pointer]
    rfl
  | indirectY =>
    rw [pointerBytes, hbyte, ofNat_zeroPage_pointer]
    rfl
  | _ => rfl

theorem lookups_eq (mode : AddressingMode) :
    ((mode.lookups read r).map UInt16.ofNat).map (Access.get read) =
      r.fetched read mode.operandBytes ++ mode.pointerAccesses read r := by
  have hfetched (k : Nat) : UInt16.ofNat ((r.pc.toNat + k) % 65536) = r.pc + UInt16.ofNat k := by
    rw [← toNat_add_ofNat, UInt16.ofNat_toNat]
  rw [lookups, List.map_append, List.map_append, pointerBytes_eq, List.map_map, List.map_map]
  congr 1
  exact List.map_congr_left fun k _ => congrArg (Access.get read) (hfetched k)

theorem pointerBytes_page (mode : AddressingMode) :
    ∀ k ∈ mode.pointerBytes read r, k / 256 =
      if mode = .indirect then wordAt read r.pc.toNat (r.pc.toNat + 1) / 256 else 0 := by
  have hbyte := (read r.pc).toNat_lt
  rw [← byteAt_operand] at hbyte
  intro k hk
  cases mode with
  | indirect | indirectX | indirectY =>
    simp only [pointerBytes, List.mem_cons, List.not_mem_nil, or_false] at hk
    simp only [reduceCtorEq, if_true, if_false]
    omega
  | _ => cases hk

theorem reference_zeroPage {mode : AddressingMode}
    (h : mode = .zeroPage ∨ mode = .zeroPageX ∨ mode = .zeroPageY) :
    ∀ z ∈ mode.reference read r, 0 ≤ z ∧ z < 256 := by
  have hbyte := (read r.pc).toNat_lt
  rw [← byteAt_operand] at hbyte
  rcases h with rfl | rfl | rfl <;>
    simp only [reference, Option.mem_some_iff, forall_eq'] <;> omega

end AddressingMode

namespace Micro

/-- The bytes that a mode looks up are read in order, and the first that is not mapped is the failure.
Otherwise the mode comes to its reference, past the operand bytes and with nothing else changed. Neither a
pointer nor an address in the zero page leaves its page. -/
theorem effectiveAddress_reference (bus : Bus β) (b : β) (r : Registers) (mode : AddressingMode) :
    let o := (effectiveAddress mode r).exec bus b
    let read := bus.read b
    let addrs := (mode.lookups read r).map UInt16.ofNat
    o.memory = b ∧ o.accesses = (addrs.takeWhile (bus.mapped b)).map (.get read) ∧
      (match addrs.find? (!bus.mapped b ·), mode.reference read r with
        | some a, _ => o.result = .error (.outOfBounds a)
        | none, none => o.result = .error (.noEffectiveAddress mode) ∧ o.registers = r
        | none, some z => ∃ e, o.result = .ok e ∧ (e.toNat : Int) = z ∧
            o.registers = { r with pc := r.pc + UInt16.ofNat mode.operandBytes }) ∧
      (∀ k ∈ mode.pointerBytes read r, k / 256 =
        if mode = .indirect then wordAt read r.pc.toNat (r.pc.toNat + 1) / 256 else 0) ∧
      (mode = .zeroPage ∨ mode = .zeroPageX ∨ mode = .zeroPageY →
        ∀ z ∈ mode.reference read r, 0 ≤ z ∧ z < 256) := by
  intro o read addrs
  have hcourse : ((effectiveAddress mode r).course bus b).map (·.2) = addrs.map (.get read) := by
    rw [course_effectiveAddress, List.map_map, AddressingMode.lookups_eq]
    exact AddressingMode.schedule_accesses bus b r mode
  have hreads : ∀ a ∈ ((effectiveAddress mode r).course bus b).map (·.2), a.isWrite = false := by
    simp [hcourse, Access.get, Access.isWrite]
  obtain ⟨hmemory, haccesses, hresult⟩ := Microcode.exec_reads hreads
  have hallows : bus.allows b ∘ Access.get read = bus.mapped b := rfl
  have hrefuses : (!bus.allows b ·) ∘ Access.get read = (!bus.mapped b ·) := rfl
  rw [hcourse, List.takeWhile_map, hallows] at haccesses
  rw [hcourse, List.find?_map, hrefuses] at hresult
  refine ⟨hmemory, haccesses, ?_, mode.pointerBytes_page read r,
    AddressingMode.reference_zeroPage read r⟩
  rcases hresult with ⟨hfind, hfree⟩ | ⟨a, hfind, hfailed⟩
  · rw [Option.map_eq_none_iff] at hfind
    rw [hfind, AddressingMode.reference_eq]
    cases hmode : mode.hasAddress with
    | true =>
      have ho : o = _ := hfree.trans (exec_effectiveAddress hmode r)
      rw [ho, Registers.past_eq]
      exact ⟨_, rfl, rfl, rfl⟩
    | false =>
      cases mode with
      | implicit | accumulator => exact ⟨rfl, rfl⟩
      | _ => cases hmode
  · obtain ⟨addr, haddr, rfl⟩ := Option.map_eq_some_iff.mp hfind
    rw [haddr]
    exact hfailed

def pageEnd : Bus Unit where
  -- an operand of `$02FF` around the top of memory; the page after `$02FF` is not mapped
  read _ addr :=
    match addr with
    | 0xFFFF => 0xFF
    | 0x0000 => 0x02
    | 0x02FF => 0x34
    | 0x0200 => 0x12
    | _ => 0
  write _ _ _ := ()
  mapped _ addr := addr < 0x0300 || addr == 0xFFFF

theorem effectiveAddress_reference_at_page_end :
    let read := pageEnd.read ()
    let r : Registers := { Registers.powerOn with x := 2, pc := 0xFFFF }
    let o := (effectiveAddress .indirect r).exec pageEnd ()
    (o.result = .ok 0x1234 ∧ o.registers = { r with pc := 1 } ∧
        o.accesses = [0xFFFF, 0, 0x02FF, 0x0200].map (.get read)) ∧
      AddressingMode.zeroPageX.reference read r = some 1 ∧
        ∀ z ∈ AddressingMode.zeroPageX.reference read r, 0 ≤ z ∧ z < 256 := by
  intro read r o
  obtain ⟨-, haccesses, hresult, -⟩ := effectiveAddress_reference pageEnd () r .indirect
  obtain ⟨-, -, -, -, hzeroPage⟩ := effectiveAddress_reference pageEnd () r .zeroPageX
  have hlookups : (AddressingMode.indirect.lookups read r).map UInt16.ofNat =
      [0xFFFF, 0, 0x02FF, 0x0200] := by decide +kernel
  have hreference : AddressingMode.indirect.reference read r = some 0x1234 := by decide +kernel
  rw [hlookups] at haccesses hresult
  rw [hreference] at hresult
  obtain ⟨e, he, hz, hregisters⟩ := hresult
  have hpc : r.pc + UInt16.ofNat AddressingMode.indirect.operandBytes = 1 := by decide
  rw [hpc] at hregisters
  obtain rfl : e = 0x1234 := UInt16.toNat_inj.mp (Int.ofNat.inj hz)
  exact ⟨⟨he, hregisters, haccesses⟩, by decide +kernel, hzeroPage (.inr (.inl rfl))⟩

end Micro

end Cpu6502
