import Cpu6502.Proofs.Endings

/-!
Straight-line code: instructions that take nothing from memory but their own bytes, and that move no
program counter but past themselves. Where a bus shows such code, the processor goes through it one
instruction a step, and each does to the registers what its mnemonic says (`Plain.reaches_encode`). So a
program of straight-line code has its effects in order if a `BRK` follows, and one that is cut short has
the effects of the instructions that are whole (`Cpu.interpret_straightLine`).
-/

namespace Cpu6502

variable {β : Type}

def Bus.Shows (bus : Bus β) (b : β) : UInt16 → List UInt8 → Prop
  | _, [] => True
  | a, v :: vs => bus.mapped b a = true ∧ bus.read b a = v ∧ Shows bus b (a + 1) vs

theorem Bus.shows_append {bus : Bus β} {b : β} {a : UInt16} {vs ws : List UInt8} :
    bus.Shows b a (vs ++ ws) ↔ bus.Shows b a vs ∧ bus.Shows b (a + UInt16.ofNat vs.length) ws := by
  induction vs generalizing a with
  | nil => simp [Shows]
  | cons v vs ih =>
    rw [List.cons_append, Shows, Shows, ih, List.length_cons, add_ofNat_succ, and_assoc, and_assoc]

theorem Image.shows {image : Image} {a : UInt16} {vs : List UInt8}
    (h : vs <+: image.bytes.toList.drop a.toNat) : Image.bus.Shows image a vs := by
  induction vs generalizing a with
  | nil => trivial
  | cons v vs ih =>
    obtain ⟨rest, hrest⟩ := h
    have hread : image.bytes[a.toNat]? = some v := by
      rw [← Array.getElem?_toList, ← Nat.add_zero a.toNat, ← List.getElem?_drop, ← hrest]
      rfl
    have hm : image.mapped a = true := by
      obtain ⟨hlt, -⟩ := Array.getElem?_eq_some_iff.mp hread
      exact Image.mapped_iff.mpr hlt
    refine ⟨hm, ?_, ih ⟨rest, ?_⟩⟩
    · exact Option.some.inj ((Image.getElem?_of_mapped hm).symm.trans hread)
    · rw [Image.toNat_succ hm, ← List.drop_drop, ← hrest]
      rfl

def Instruction.registerOnly (i : Instruction) : Bool :=
  match i.mode with
  | .immediate | .accumulator => true
  | .implicit => !decide (i.mnemonic ∈ [.brk, .pha, .php, .pla, .plp, .rts, .rti])
  | _ => false

def Opcode.registerOnly (policy : UnknownOpcodes) (o : Opcode) : Bool :=
  match o.instruction with
  | some i => i.registerOnly
  | none => policy == .skip

def Action.effect (v : UInt8) (r : Registers) : Action → Registers
  | .consume effect => effect r v
  | .modify change =>
      Registers.loadA { r with status := change.flags r.status r.a } (change.byte r.status r.a)
  | .internal effect => effect r
  | _ => r

theorem Mnemonic.effect_pc (m : Mnemonic) (v : UInt8) (r : Registers) (w : UInt16) :
    m.action.effect v { r with pc := w } = { m.action.effect v r with pc := w } := by
  cases m <;> rfl

def Action.plainMode? : Action → Option AddressingMode
  | .consume _ => some .immediate
  | .modify _ => some .accumulator
  | .internal _ => some .implicit
  | _ => none

theorem Instruction.registerOnly_cases {code : UInt8} {i : Instruction} (hd : decode code = some i)
    (h : i.registerOnly = true) :
    (i.mode = .immediate ∧ ∃ effect, i.mnemonic.action = .consume effect) ∨
      (i.mode = .accumulator ∧ ∃ change, i.mnemonic.action = .modify change) ∨
        (i.mode = .implicit ∧ ∃ effect, i.mnemonic.action = .internal effect) := by
  have hmode : i.mnemonic.action.plainMode? = some i.mode := by
    revert h
    apply of_decode hd
    intro m
    cases m <;> decide
  cases hact : i.mnemonic.action with
  | consume effect =>
    rw [hact] at hmode
    exact .inl ⟨(Option.some.inj hmode).symm, effect, rfl⟩
  | modify change =>
    rw [hact] at hmode
    exact .inr (.inl ⟨(Option.some.inj hmode).symm, change, rfl⟩)
  | internal effect =>
    rw [hact] at hmode
    exact .inr (.inr ⟨(Option.some.inj hmode).symm, effect, rfl⟩)
  | _ =>
    rw [hact] at hmode
    cases hmode

theorem Action.exec_consume_immediate (effect : Registers → UInt8 → Registers) (bus : Bus β) (b : β)
    (s : Registers) :
    ((consume effect).perform .immediate s).exec bus b =
      if bus.mapped b s.pc = true then
        (⟨.ok .proceed, effect { s with pc := s.pc + 1 } (bus.read b s.pc), b, [], []⟩ :
          Outcome Step β).after (.read s.pc (bus.read b s.pc))
      else ⟨.error (.outOfBounds s.pc), s, b, [], []⟩ := rfl

theorem Instruction.exec_registerOnly {code : UInt8} {i : Instruction} (hd : decode code = some i)
    (h : i.registerOnly = true) {operand : List UInt8}
    (hlength : operand.length = i.mode.operandBytes) {bus : Bus β} {b : β} {s : Registers}
    (hshows : bus.Shows b s.pc operand) :
    let o := (i.mnemonic.action.perform i.mode s).exec bus b
    o.result = .ok .proceed ∧ o.memory = b ∧
      o.registers = { i.mnemonic.action.effect (operand.headD 0) s with
        pc := s.pc + UInt16.ofNat operand.length } := by
  have hpc := i.mnemonic.effect_pc (operand.headD 0) s
  have hzero : s.pc + UInt16.ofNat 0 = s.pc := UInt16.add_zero s.pc
  rcases i.registerOnly_cases hd h with
    ⟨hmode, effect, hact⟩ | ⟨hmode, change, hact⟩ | ⟨hmode, effect, hact⟩
  · rw [hmode] at hlength
    obtain ⟨v, rfl⟩ := List.length_eq_one_iff.mp hlength
    obtain ⟨hm, hread, -⟩ := hshows
    rw [hmode, hact, Action.exec_consume_immediate, if_pos hm, hread, ← hact, ← hpc, hact]
    exact ⟨rfl, rfl, rfl⟩
  · rw [hmode] at hlength
    obtain rfl : operand = [] := List.length_eq_zero_iff.mp hlength
    rw [hmode, ← hpc, hact, List.length_nil, hzero]
    exact ⟨rfl, rfl, rfl⟩
  · rw [hmode] at hlength
    obtain rfl : operand = [] := List.length_eq_zero_iff.mp hlength
    rw [hmode, ← hpc, hact, List.length_nil, hzero]
    exact ⟨rfl, rfl, rfl⟩

structure Plain (policy : UnknownOpcodes) where
  code : UInt8
  operand : List UInt8
  registerOnly : (Opcode.ofCode code).registerOnly policy = true
  operand_length : operand.length = (Opcode.ofCode code).mode.operandBytes

namespace Plain

variable {policy : UnknownOpcodes}

def bytes (l : Plain policy) : List UInt8 := l.code :: l.operand

def effect (l : Plain policy) (r : Registers) : Registers :=
  match (Opcode.ofCode l.code).instruction with
  | some i => i.mnemonic.action.effect (l.operand.headD 0) r
  | none => r

def encode (ls : List (Plain policy)) : List UInt8 := ls.flatMap bytes

def effects (ls : List (Plain policy)) (r : Registers) : Registers :=
  ls.foldl (fun r l => l.effect r) r

def whole : List (Plain policy) → Nat → List (Plain policy)
  | [], _ => []
  | l :: ls, n => if l.bytes.length ≤ n then l :: whole ls (n - l.bytes.length) else []

theorem effect_pc (l : Plain policy) (r : Registers) (w : UInt16) :
    l.effect { r with pc := w } = { l.effect r with pc := w } := by
  unfold effect
  split
  · rename_i i _
    exact i.mnemonic.effect_pc _ r w
  · rfl

theorem effects_pc (ls : List (Plain policy)) (r : Registers) (w : UInt16) :
    effects ls { r with pc := w } = { effects ls r with pc := w } := by
  induction ls generalizing r with
  | nil => rfl
  | cons l ls ih =>
    change effects ls (l.effect { r with pc := w }) = _
    rw [effect_pc, ih]
    rfl

theorem decode_code (l : Plain policy) :
    (decode l.code = none ∧ policy = .skip ∧ l.operand = []) ∨
      ∃ i, decode l.code = some i ∧ i.registerOnly = true ∧
        l.operand.length = i.mode.operandBytes := by
  have honly := l.registerOnly
  have hlength := l.operand_length
  rw [Opcode.ofCode] at honly hlength
  cases hd : decode l.code with
  | none =>
    rw [hd] at honly hlength
    exact .inl ⟨rfl, eq_of_beq honly, List.length_eq_zero_iff.mp hlength⟩
  | some i =>
    rw [hd] at honly hlength
    exact .inr ⟨i, rfl, honly, hlength⟩

theorem operand_cases (l : Plain policy) :
    l.operand = [] ∨ ∃ v i effect, l.operand = [v] ∧ decode l.code = some i ∧
      i.mode = .immediate ∧ i.mnemonic.action = .consume effect := by
  rcases l.decode_code with ⟨-, -, hnone⟩ | ⟨i, hd, honly, hlength⟩
  · exact .inl hnone
  · rcases Instruction.registerOnly_cases hd honly with
      ⟨hmode, effect, hact⟩ | ⟨hmode, -⟩ | ⟨hmode, -⟩
    · rw [hmode] at hlength
      obtain ⟨v, hv⟩ := List.length_eq_one_iff.mp hlength
      exact .inr ⟨v, i, effect, hv, hd, hmode, hact⟩
    · rw [hmode] at hlength
      exact .inl (List.length_eq_zero_iff.mp hlength)
    · rw [hmode] at hlength
      exact .inl (List.length_eq_zero_iff.mp hlength)

variable {bus : Bus β} {b : β} {r : Registers}

theorem step_shown {l : Plain policy} (h : bus.Shows b r.pc l.bytes) :
    let o := Cpu.step ⟨r, policy⟩ bus b
    o.result = .ok .proceed ∧ o.memory = b ∧
      o.registers = { l.effect r with pc := r.pc + UInt16.ofNat l.bytes.length } := by
  obtain ⟨hm, hcode, hoperand⟩ := h
  intro o
  have ho : o = _ := Cpu.step_mapped (c := ⟨r, policy⟩) hm
  rw [ho, hcode]
  rcases l.decode_code with ⟨hd, rfl, hnone⟩ | ⟨i, hd, honly, hlength⟩
  · simp only [Micro.execution, hd]
    refine ⟨rfl, rfl, ?_⟩
    rw [effect, Opcode.ofCode, hd, bytes, hnone]
    rfl
  · have heffect : l.effect = i.mnemonic.action.effect (l.operand.headD 0) := by
      funext s
      rw [effect, Opcode.ofCode, hd]
    obtain ⟨hresult, hmemory, hregisters⟩ := i.exec_registerOnly hd honly hlength
      (s := r.past 1) hoperand
    simp only [Micro.execution, hd]
    refine ⟨hresult, hmemory, hregisters.trans ?_⟩
    rw [heffect, bytes, List.length_cons, add_ofNat_succ]
    exact congrArg (fun q : Registers => { q with pc := r.pc + 1 + UInt16.ofNat l.operand.length })
      (i.mnemonic.effect_pc (l.operand.headD 0) r (r.pc + 1))

theorem effects_cons (l : Plain policy) (ls : List (Plain policy)) (r : Registers) :
    effects (l :: ls) r = effects ls (l.effect r) := rfl

theorem reaches_encode {ls : List (Plain policy)} (h : bus.Shows b r.pc (encode ls)) :
    Cpu.Reaches bus ls.length ⟨r, policy⟩ b
      ⟨{ effects ls r with pc := r.pc + UInt16.ofNat (encode ls).length }, policy⟩ b := by
  induction ls generalizing r with
  | nil =>
    have hpc : r.pc + UInt16.ofNat 0 = r.pc := UInt16.add_zero r.pc
    change Cpu.Reaches bus 0 ⟨r, policy⟩ b ⟨{ r with pc := r.pc + UInt16.ofNat 0 }, policy⟩ b
    rw [hpc]
    exact .refl _ _
  | cons l ls ih =>
    rw [encode, List.flatMap_cons, Bus.shows_append] at h
    obtain ⟨hresult, hmemory, hregisters⟩ := step_shown h.1
    have hpc : r.pc + UInt16.ofNat (encode (l :: ls)).length =
        r.pc + UInt16.ofNat l.bytes.length + UInt16.ofNat (encode ls).length := by
      rw [encode, List.flatMap_cons, List.length_append, UInt16.ofNat_add, UInt16.add_assoc]
      rfl
    refine .step hresult ?_
    rw [hmemory, hregisters, hpc, effects_cons]
    have hrest := ih (r := { l.effect r with pc := r.pc + UInt16.ofNat l.bytes.length }) h.2
    rwa [effects_pc] at hrest

/-- A beginning of the encoding is that of the whole instructions in it, and at most an opcode that
has lost its operand. -/
theorem encode_prefix {ls : List (Plain policy)} {vs : List UInt8} (h : vs <+: encode ls) :
    ∃ rest, vs = encode (whole ls vs.length) ++ rest ∧
      (rest = [] ∨ ∃ (l : Plain policy) (v : UInt8), rest = [l.code] ∧ l.operand = [v]) := by
  induction ls generalizing vs with
  | nil =>
    obtain rfl : vs = [] := List.prefix_nil.mp h
    exact ⟨[], rfl, .inl rfl⟩
  | cons l ls ih =>
    rw [encode, List.flatMap_cons] at h
    have hl : l.bytes <+: l.bytes ++ ls.flatMap bytes := List.prefix_append _ _
    rw [whole]
    split
    · rename_i hle
      obtain ⟨ws, rfl⟩ := List.prefix_of_prefix_length_le hl h hle
      obtain ⟨rest, hrest, hcut⟩ := ih ((List.prefix_append_right_inj _).mp h)
      refine ⟨rest, ?_, hcut⟩
      rw [List.length_append, Nat.add_sub_cancel_left, encode, List.flatMap_cons, List.append_assoc]
      exact congrArg (l.bytes ++ ·) hrest
    · rename_i hlt
      have hvs : vs <+: l.bytes :=
        List.prefix_of_prefix_length_le h hl (Nat.le_of_lt (Nat.lt_of_not_le hlt))
      -- the cut is in front of the opcode or behind it; an operand has no byte to lose but its only one
      refine ⟨vs, rfl, ?_⟩
      rcases List.prefix_cons_iff.mp hvs with hnil | ⟨ws, rfl, hws⟩
      · exact .inl hnil
      · have hshort : ws.length < l.operand.length := by
          simpa [bytes] using hlt
        rcases l.operand_cases with hnone | ⟨v, -, -, hv, -⟩
        · simp [hnone] at hshort
        · obtain rfl : ws = [] := by simpa [hv] using hshort
          exact .inr ⟨l, v, rfl, hv⟩

theorem step_cut {l : Plain policy} {v : UInt8} (hv : l.operand = [v])
    (hm : bus.mapped b r.pc = true) (hcode : bus.read b r.pc = l.code)
    (hend : bus.mapped b (r.pc + 1) = false) :
    (Cpu.step ⟨r, policy⟩ bus b).stop =
      ⟨.faulted (.outOfBounds (r.pc + 1)), { r with pc := r.pc + 1 }, b⟩ := by
  rcases l.operand_cases with hnone | ⟨-, i, effect, -, hd, hmode, hact⟩
  · rw [hnone] at hv
    cases hv
  · have hend : ¬ bus.mapped b (r.past 1).pc = true := Bool.eq_false_iff.mp hend
    rw [Cpu.step_mapped (c := ⟨r, policy⟩) hm, hcode]
    simp only [Micro.execution, hd, hmode, hact]
    rw [Action.exec_consume_immediate, if_neg hend]
    rfl

end Plain

namespace Cpu

variable {policy : UnknownOpcodes}

theorem interpret_of_reaches {program : Array UInt8} (hsize : program.size ≤ 0xFFFF) {c d : Cpu}
    {k n : Nat} {e : Stop Image} (hreach : Reaches Image.bus k
      { c with registers := { c.registers with pc := 0 } } ⟨program, hsize⟩ d ⟨program, hsize⟩)
    (hstop : (d.step Image.bus ⟨program, hsize⟩).stop = e) (he : e.ending ≠ .unfinished)
    (hk : k < n) :
    (c.interpret program n).ending = e.ending ∧
      (c.interpret program n).registers = e.registers := by
  have hd : (d.step Image.bus ⟨program, hsize⟩).result ≠ .ok .proceed := by
    intro hproceed
    refine he ?_
    rw [← hstop, Outcome.stop, hproceed]
    rfl
  have hrun := (hreach.run_eq_stop hd hk).trans hstop
  rw [interpret_of_size hsize]
  exact ⟨congrArg Stop.ending hrun, congrArg Stop.registers hrun⟩

theorem reaches_behind {program : Array UInt8} (hsize : program.size ≤ 0xFFFF)
    {ls : List (Plain policy)} {rest : List UInt8}
    (h : program.toList = Plain.encode ls ++ rest) (r : Registers) :
    let image : Image := ⟨program, hsize⟩
    let w := UInt16.ofNat (Plain.encode ls).length
    Image.bus.Shows image w rest ∧
      Reaches Image.bus ls.length ⟨{ r with pc := 0 }, policy⟩ image
        ⟨{ Plain.effects ls r with pc := w }, policy⟩ image := by
  intro image w
  have hw : 0 + UInt16.ofNat (Plain.encode ls).length = w := UInt16.zero_add w
  have hall : Image.bus.Shows image 0 (Plain.encode ls ++ rest) := by
    refine Image.shows ?_
    rw [← h]
    exact List.prefix_rfl
  obtain ⟨hcode, hrest⟩ := Bus.shows_append.mp hall
  rw [hw] at hrest
  have hreach := Plain.reaches_encode (r := { r with pc := 0 }) hcode
  rw [hw, Plain.effects_pc] at hreach
  exact ⟨hrest, hreach⟩

theorem interpret_whole {ls : List (Plain policy)} {tail : List UInt8}
    (hsize : (Plain.encode ls ++ 0 :: tail).length ≤ 0xFFFF) (r : Registers) {n : Nat}
    (hn : ls.length < n) :
    let s := interpret ⟨r, policy⟩ (Plain.encode ls ++ 0 :: tail).toArray n
    s.ending = .halted ∧ s.registers =
      { Plain.effects ls r with pc := UInt16.ofNat ((Plain.encode ls).length + 1) } := by
  intro s
  have hfits : (Plain.encode ls ++ 0 :: tail).toArray.size ≤ 0xFFFF := by
    simpa using hsize
  obtain ⟨⟨hm, hzero, -⟩, hreach⟩ := reaches_behind hfits List.toList_toArray r
  let d : Cpu := ⟨{ Plain.effects ls r with pc := UInt16.ofNat (Plain.encode ls).length }, policy⟩
  obtain ⟨hhalt, hregisters, -, -⟩ := step_zero (c := d) hm hzero
  have hending : Ending.ofResult (d.step Image.bus _).result = .halted :=
    Ending.ofResult_eq_halted.mpr hhalt
  obtain ⟨hend, hleft⟩ := interpret_of_reaches (c := ⟨r, policy⟩) _ hreach rfl
    (not_unfinished_of_stop (by rw [hhalt]; exact nofun)) hn
  refine ⟨hend.trans hending, hleft.trans (hregisters.trans ?_)⟩
  rw [UInt16.ofNat_add]
  rfl

theorem unmapped_end (image : Image) : Image.bus.mapped image (UInt16.ofNat image.size) = false := by
  have hlt : ¬ (UInt16.ofNat image.size).toNat < image.size := by
    rw [UInt16.toNat_ofNat_of_lt' image.size_lt]
    exact Nat.lt_irrefl _
  exact Bool.eq_false_iff.mpr fun h => hlt (Image.mapped_iff.mp h)

theorem interpret_cut {ls : List (Plain policy)} {cut rest : List UInt8}
    (hcut : cut = Plain.encode ls ++ rest)
    (hrest : rest = [] ∨ ∃ (l : Plain policy) (v : UInt8), rest = [l.code] ∧ l.operand = [v])
    (hsize : cut.length ≤ 0xFFFF) (r : Registers) {n : Nat} (hn : ls.length < n) :
    let s := interpret ⟨r, policy⟩ cut.toArray n
    let w := UInt16.ofNat cut.length
    s.ending = .faulted (.outOfBounds w) ∧ s.registers = { Plain.effects ls r with pc := w } := by
  intro s w
  have hfits : cut.toArray.size ≤ 0xFFFF := by simpa using hsize
  obtain ⟨hshows, hreach⟩ := reaches_behind hfits (List.toList_toArray.trans hcut) r
  have hend : Image.bus.mapped ⟨cut.toArray, hfits⟩ w = false := unmapped_end _
  have hlength : cut.length = (Plain.encode ls).length + rest.length := by
    rw [hcut, List.length_append]
  rcases hrest with rfl | ⟨l, v, rfl, hv⟩
  · have hw : UInt16.ofNat (Plain.encode ls).length = w := congrArg UInt16.ofNat hlength.symm
    rw [hw] at hreach
    have hstep : step ⟨{ Plain.effects ls r with pc := w }, policy⟩ Image.bus _ =
        ⟨.error (.outOfBounds w), _, _, [], []⟩ := step_unmapped hend
    exact interpret_of_reaches _ hreach (congrArg Outcome.stop hstep) nofun hn
  · have hw : UInt16.ofNat (Plain.encode ls).length + 1 = w := by
      rw [show w = UInt16.ofNat cut.length from rfl, hlength, UInt16.ofNat_add]
      rfl
    obtain ⟨hm, hcode, -⟩ := hshows
    have hstop := Plain.step_cut hv
      (r := { Plain.effects ls r with pc := UInt16.ofNat (Plain.encode ls).length })
      hm hcode (hw ▸ hend)
    rw [hw] at hstop
    exact interpret_of_reaches _ hreach hstop nofun hn

/-- Straight-line code with a `BRK` behind it halts, and then each instruction has had its effect, in
order. If it is cut short anywhere, in front of an operand too, the program counter comes to the end, where
nothing can be fetched, and only the instructions that are whole have had theirs. -/
theorem interpret_straightLine (policy : UnknownOpcodes) (r : Registers)
    (ls : List (Plain policy)) :
    let c : Cpu := ⟨r, policy⟩
    let code := Plain.encode ls
    (∀ tail, (code ++ 0 :: tail).length ≤ 0xFFFF → ∀ n, ls.length < n →
        let s := c.interpret (code ++ 0 :: tail).toArray n
        s.ending = .halted ∧
          s.registers = { Plain.effects ls r with pc := UInt16.ofNat (code.length + 1) }) ∧
      ∀ cut, cut <+: code → cut.length ≤ 0xFFFF →
        let done := Plain.whole ls cut.length
        let w := UInt16.ofNat cut.length
        ∀ n, done.length < n →
          let s := c.interpret cut.toArray n
          s.ending = .faulted (.outOfBounds w) ∧
            s.registers = { Plain.effects done r with pc := w } := by
  intro c code
  refine ⟨fun tail hsize n hn => interpret_whole hsize r hn, ?_⟩
  intro cut hcut hsize done w n hn
  obtain ⟨rest, hrest, hlast⟩ := Plain.encode_prefix hcut
  exact interpret_cut hrest hlast hsize r hn

def brief : List (Plain .skip) :=
  -- `LDA #$05`, a byte that encodes nothing, and `INX`
  [⟨0xA9, [0x05], rfl, rfl⟩, ⟨0x02, [], rfl, List.length_nil⟩, ⟨0xE8, [], rfl, List.length_nil⟩]

theorem interpret_straightLine_brief :
    let whole := powerOn.interpret #[0xA9, 0x05, 0x02, 0xE8, 0x00, 0xFF] 4
    let cut := powerOn.interpret #[0xA9] 1
    Plain.encode brief = [0xA9, 0x05, 0x02, 0xE8] ∧
      (whole.ending = .halted ∧
        whole.registers = { Registers.powerOn with a := 5, x := 1, pc := 5 }) ∧
      [0xA9] <+: Plain.encode brief ∧ cut.ending = .faulted (.outOfBounds 1) ∧
        cut.registers = { Registers.powerOn with pc := 1 } := by
  intro whole cut
  have hcut : [0xA9] <+: Plain.encode brief := ⟨[0x05, 0x02, 0xE8], rfl⟩
  have heffects : Plain.effects brief .powerOn = { Registers.powerOn with a := 5, x := 1 } := by
    decide +kernel
  obtain ⟨hwhole, hends⟩ := interpret_straightLine .skip .powerOn brief
  obtain ⟨hhalted, hregisters⟩ := hwhole [0xFF] (by decide) 4 (by decide)
  rw [heffects] at hregisters
  exact ⟨rfl, ⟨hhalted, hregisters⟩, hcut, hends [0xA9] hcut (by decide) 1 (by decide)⟩

end Cpu

end Cpu6502
