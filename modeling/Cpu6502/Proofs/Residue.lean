import Cpu6502.Proofs.Schedule

/-!
What a failing step leaves behind. A step that does not succeed either met a byte that encodes no
instruction or stopped in front of an access of its schedule (`Cpu.step_error_cases`). What it has
done by then follows from how far it came: `Cpu.step_residue` gives every register and the memory.
-/

namespace Cpu6502

variable {β : Type}

theorem Cpu.step_error_cases {c : Cpu} {bus : Bus β} {b : β} {e : Fault}
    (h : (c.step bus b).result = .error e) :
    let o := c.step bus b
    let code := bus.read b c.registers.pc
    decode code = none ∧ e = .unimplementedOpcode code ∧ o.registers = c.registers.past 1 ∧
        o.accesses = [.read c.registers.pc code] ∨
      ∃ past m rest, c.schedule bus b = past ++ m :: rest ∧
        o.accesses = past.map (·.access) ∧ o.registers = m.registers ∧
        e = .outOfBounds m.access.addr := by
  intro o code
  rcases Microcode.exec_cut bus (Micro.instruction c.policy c.registers) b with
    hfree | ⟨past, r, a, rest, hcourse, ha, hr, he, -⟩
  · left
    have ho : o = c.step bus.unrestricted b := hfree
    have hres : o.result = .error e := h
    rw [ho] at hres ⊢
    rw [step_accesses]
    cases hd : decode code with
    | some i =>
      rw [(step_documented hd).1] at hres
      cases hres
    | none =>
      obtain ⟨hregs, hu⟩ := step_undocumented hd
      rw [hu] at hres
      cases hp : c.policy with
      | skip =>
        rw [hp] at hres
        cases hres
      | error =>
        rw [hp] at hres
        cases hres
        refine ⟨rfl, rfl, hregs, ?_⟩
        simp [schedule, show decode (bus.read b c.registers.pc) = none from hd, code]
  · right
    rw [course_step] at hcourse
    obtain ⟨ms, ns, hs, hpast, hns⟩ := List.map_eq_append_iff.mp hcourse
    obtain ⟨m, ns, rfl, hm, hrest⟩ := List.map_eq_cons_iff.mp hns
    obtain ⟨rfl, rfl⟩ : m.registers = r ∧ m.access = a := Prod.mk.inj hm
    refine ⟨ms, m, ns, hs, ?_, hr, ?_⟩
    · have hacc : o.accesses = _ := ha
      rw [hacc, ← hpast, List.map_map]
      rfl
    · have hres : Except.error e = _ := h.symm.trans he
      cases hres
      rfl

theorem Mnemonic.eq_of_action_call {m : Mnemonic} (h : m.action = .call) : m = .jsr := by
  cases m <;> first | rfl | cases h

namespace Action

variable {bus : Bus β} {b : β} {mode : AddressingMode} {e : UInt16} {s : Registers} {act : Action}

def interim (bus : Bus β) (b : β) (e : UInt16) (s : Registers) (due : Phase) (done : Nat) :
    Action → Status
  | .modify change => if due = .store then change.flags s.status (bus.read b e) else s.status
  | .returnFromInterrupt =>
      if done = 0 then s.status else .ofStack (bus.read b (stackAddress (s.sp + 1)))
  | _ => s.status

theorem tail_status {k : Nat} {m : Moment} (h : (act.tail bus b mode e s)[k]? = some m) :
    m.registers.status = act.interim bus b e s m.phase k := by
  cases act with
  | consume effect =>
    by_cases hm : mode = .immediate
    · simp [tail, hm] at h
    · rcases k with _ | k <;> simp [tail, hm] at h
      exact h ▸ rfl
  | modify change =>
    by_cases hm : mode = .accumulator
    · simp [tail, hm] at h
    · rcases k with _ | _ | k <;> simp [tail, hm] at h
      · exact h ▸ rfl
      · exact h ▸ rfl
  | store source | push source | pull effect =>
    rcases k with _ | k <;> simp [tail, pushes, pulls] at h
    exact h ▸ rfl
  | call | returnFromCall =>
    rcases k with _ | _ | k <;> simp [tail, pushes, pulls] at h
    · exact h ▸ rfl
    · exact h ▸ rfl
  | returnFromInterrupt =>
    rcases k with _ | _ | _ | k <;> simp [tail, pulls] at h
    · exact h ▸ rfl
    · exact h ▸ rfl
    · exact h ▸ rfl
  | internal effect | branch flag wanted | jump | halt => simp [tail] at h

theorem phases_take {k : Nat} {p : Phase} (h : (act.phases mode)[k]? = some p) :
    (∀ q ∈ (act.phases mode).take k, q = .load ∨ q = .pull) ∨
      act = .call ∧ k = 1 ∧ p = .push := by
  cases act with
  | consume effect =>
    by_cases hm : mode = .immediate
    · simp [phases, hm] at h
    · rcases k with _ | k <;> simp [phases, hm] at h
      simp
  | modify change =>
    by_cases hm : mode = .accumulator
    · simp [phases, hm] at h
    · rcases k with _ | _ | k <;> simp [phases, hm] at h
      · simp
      · simp [phases, hm]
  | store source | push source | pull effect =>
    rcases k with _ | k <;> simp [phases] at h
    simp
  | call =>
    rcases k with _ | _ | k <;> simp [phases] at h
    · simp
    · exact .inr ⟨rfl, rfl, h.symm⟩
  | returnFromCall | returnFromInterrupt =>
    left
    intro q hq
    have hq := List.mem_of_mem_take hq
    simp only [phases, List.mem_cons, List.not_mem_nil, or_false] at hq
    grind
  | internal effect | branch flag wanted | jump | halt => simp [phases] at h

end Action

/-- The status that is left in front of an access for `due`, after `pulled` pulls. A shift has set
its carry when its write is due, and a return from an interrupt its status once that is pulled. -/
def Instruction.residualStatus (i : Instruction) (bus : Bus β) (b : β) (r : Registers)
    (due : Phase) (pulled : Nat) : Status :=
  let old := bus.read b (i.mode.address (bus.read b) (r.past 1))
  match i.mnemonic, due with
  | .asl, .store | .rol, .store => r.status.put .carry (old &&& 0x80 != 0)
  | .lsr, .store | .ror, .store => r.status.put .carry (old &&& 0x01 != 0)
  | .rti, .pull =>
      if pulled = 0 then r.status
      else ((Status.mk (bus.read b (stackAddress (r.sp + 1)))).put .breakCommand false).put .unused true
  | _, _ => r.status

def Opcode.residualStatus (o : Opcode) (bus : Bus β) (b : β) (r : Registers)
    (due : Option Phase) (pulled : Nat) : Status :=
  match o.instruction, due with
  | some i, some p => i.residualStatus bus b r p pulled
  | _, _ => r.status

theorem Instruction.residualStatus_early (i : Instruction) (bus : Bus β) (b : β) (r : Registers)
    {p : Phase} (hp : p = .fetch ∨ p = .pointer) (n : Nat) :
    i.residualStatus bus b r p n = r.status := by
  obtain ⟨m, mode⟩ := i
  rcases hp with rfl | rfl <;> cases m <;> rfl

theorem Instruction.interim_eq (i : Instruction) (bus : Bus β) (b : β) (r : Registers) {k : Nat}
    {p : Phase} (h : (i.mnemonic.action.phases i.mode)[k]? = some p) :
    i.mnemonic.action.interim bus b (i.mode.address (bus.read b) (r.past 1)) r p k =
      i.residualStatus bus b r p (((i.mnemonic.action.phases i.mode).take k).count .pull) := by
  obtain ⟨m, mode⟩ := i
  cases m with
  | inc | dec | asl | lsr | rol | ror => cases p <;> rfl
  | rti => rcases k with _ | _ | _ | k <;> cases h <;> rfl
  | _ => rfl

theorem split_append {α : Type} {l tail past rest : List α} {m : α}
    (h : l ++ tail = past ++ m :: rest) :
    m ∈ l ∧ past <+: l ∨ ∃ k, past = l ++ tail.take k ∧ tail[k]? = some m := by
  rcases List.append_eq_append_iff.mp h with ⟨as, hp, ht⟩ | ⟨bs, hl, hb⟩
  · exact .inr ⟨as.length, by simp [hp, ht], by simp [ht]⟩
  · cases bs with
    | nil =>
      obtain rfl : tail = m :: rest := hb.symm
      exact .inr ⟨0, by simpa using hl.symm, rfl⟩
    | cons x bs =>
      cases hb
      exact .inl ⟨by simp [hl], ⟨_, hl.symm⟩⟩

theorem Opcode.phases_eq (o : Opcode) :
    ∃ rest, o.phases = List.replicate o.size .fetch ++ rest ∧ Phase.fetch ∉ rest := by
  cases hi : o.instruction with
  | none => exact ⟨[], by simp [phases, size, hi], by simp⟩
  | some i =>
    have hact : Phase.fetch ∉ i.mnemonic.action.phases i.mode := by
      cases i.mnemonic.action <;> simp only [Action.phases] <;> first | decide | (split <;> decide)
    obtain ⟨pointers, hm, hp⟩ : ∃ pointers,
        i.mode.phases = List.replicate i.mode.operandBytes .fetch ++ pointers ∧
          Phase.fetch ∉ pointers := ⟨_, rfl, by cases i.mode <;> decide⟩
    refine ⟨pointers ++ i.mnemonic.action.phases i.mode, ?_, by simp [hp, hact]⟩
    simp [phases, size, hi, Instruction.size, Instruction.phases, hm, Nat.add_comm 1,
      List.replicate_succ]

theorem Phase.count_eq_zero {ps : List Phase} (h : ∀ p ∈ ps, p = .fetch ∨ p = .pointer) {q : Phase}
    (hq : q ≠ .fetch ∧ q ≠ .pointer) : ps.count q = 0 := by
  rw [List.count_eq_zero]
  intro hm
  rcases h q hm with h | h
  · exact hq.1 h
  · exact hq.2 h

theorem Opcode.count_fetch_take {o : Opcode} {n : Nat} {p : Phase} (h : o.phases[n]? = some p) :
    (o.phases.take n).count .fetch = if p = .fetch then n else o.size := by
  obtain ⟨rest, hp, hr⟩ := o.phases_eq
  rw [hp] at h ⊢
  rw [List.getElem?_append] at h
  split at h
  · rename_i hn
    rw [List.length_replicate] at hn
    rw [List.getElem?_replicate_of_lt hn] at h
    cases h
    have hle := Nat.le_of_lt hn
    simp [List.take_append, List.take_replicate, Nat.min_eq_left hle, Nat.sub_eq_zero_of_le hle]
  · rename_i hn
    rw [List.length_replicate] at hn h
    have hne : p ≠ .fetch := by
      rintro rfl
      exact hr (List.mem_of_getElem? h)
    have hrest : (rest.take (n - o.size)).count .fetch = 0 :=
      List.count_eq_zero.mpr fun hm => hr (List.mem_of_mem_take hm)
    rw [List.take_append, List.count_append, List.length_replicate, hrest, List.take_replicate,
      List.count_replicate_self, if_neg hne]
    omega

theorem Moment.Placed.isWrite_eq {r : Registers} {m : Moment} (h : m.Placed r) :
    m.access.isWrite = (m.phase == .store || m.phase == .push) := by
  obtain ⟨phase, regs, access⟩ := m
  cases phase <;> cases access <;> first | rfl | exact h.elim

theorem Moment.Placed.addr_eq {r : Registers} {m : Moment} (h : m.Placed r) :
    (m.phase = .fetch → m.access.addr = r.pc) ∧
      (m.phase = .push ∨ m.phase = .pull →
        m.access.addr = stackAddress (m.phase.attempt r).sp) := by
  obtain ⟨phase, regs, access⟩ := m
  cases phase with
  | fetch =>
    cases access with
    | read addr v => exact ⟨fun _ => h, by simp⟩
    | write addr v => exact h.elim
  | push =>
    cases access with
    | read addr v => exact h.elim
    | write addr v => exact ⟨by simp, fun _ => h⟩
  | pull =>
    cases access with
    | read addr v => exact ⟨by simp, fun _ => h⟩
    | write addr v => exact h.elim
  | pointer | load | store => simp

theorem Moment.Paced.isWrite_eq {r : Registers} {ms : List Moment} (h : Paced r ms) :
    ∀ m ∈ ms, m.access.isWrite = (m.phase == .store || m.phase == .push) := by
  induction ms generalizing r with
  | nil => simp
  | cons m ms ih =>
    intro x hx
    rcases List.mem_cons.mp hx with rfl | hx
    · exact h.2.1.isWrite_eq
    · exact ih h.2.2 x hx

namespace Cpu

variable {c : Cpu} {bus : Bus β} {b : β} {past rest : List Moment} {m : Moment}

theorem schedule_split (h : c.schedule bus b = past ++ m :: rest) :
    (m.registers.status = c.registers.status ∧ (m.phase = .fetch ∨ m.phase = .pointer) ∧
        ∀ x ∈ past, x.access.isWrite = false ∧ (x.phase = .fetch ∨ x.phase = .pointer)) ∨
      ∃ i k, decode (bus.read b c.registers.pc) = some i ∧
        past = c.prelude bus b i.mode ++ (c.tail bus b i).take k ∧
        (c.tail bus b i)[k]? = some m := by
  cases hd : decode (bus.read b c.registers.pc) with
  | none =>
    left
    simp only [schedule, hd] at h
    rcases past with _ | ⟨x, past⟩ <;> simp at h
    obtain ⟨rfl, -⟩ := h
    exact ⟨rfl, .inl rfl, by simp⟩
  | some i =>
    rw [schedule_documented hd] at h
    rcases split_append h with ⟨hm, hpast⟩ | ⟨k, hk, hm⟩
    · left
      have hq := c.prelude_quiet bus b i.mode
      exact ⟨(hq m hm).1, (hq m hm).2.2, fun x hx => (hq x (hpast.subset hx)).2⟩
    · exact .inr ⟨i, k, rfl, hk, hm⟩

theorem tail_status {i : Instruction} {k : Nat} (h : (c.tail bus b i)[k]? = some m) :
    m.registers.status = i.residualStatus bus b c.registers m.phase
      (((i.mnemonic.action.phases i.mode).take k).count .pull) := by
  rw [← i.interim_eq bus b c.registers (tail_phase h), Action.tail_status h, Registers.past_eq,
    Registers.past_eq]
  cases i.mnemonic.action <;> rfl

theorem count_prelude (c : Cpu) (bus : Bus β) (b : β) (mode : AddressingMode) {q : Phase}
    (hq : q ≠ .fetch ∧ q ≠ .pointer) (ms : List Moment) :
    ((c.prelude bus b mode ++ ms).map (·.phase)).count q = (ms.map (·.phase)).count q := by
  have hp : ∀ p ∈ (c.prelude bus b mode).map (·.phase), p = .fetch ∨ p = .pointer := by
    intro p hp
    obtain ⟨x, hx, rfl⟩ := List.mem_map.mp hp
    exact (c.prelude_quiet bus b mode x hx).2.2
  rw [List.map_append, List.count_append, Phase.count_eq_zero hp hq, Nat.zero_add]

theorem status_of_split (h : c.schedule bus b = past ++ m :: rest) :
    m.registers.status =
      (Opcode.ofCode (bus.read b c.registers.pc)).residualStatus bus b c.registers (some m.phase)
        ((past.map (·.phase)).count .pull) := by
  rcases schedule_split h with ⟨hst, hp, -⟩ | ⟨i, k, hd, rfl, hm⟩
  · unfold Opcode.residualStatus
    rw [hst]
    cases (Opcode.ofCode (bus.read b c.registers.pc)).instruction with
    | none => rfl
    | some i => exact (i.residualStatus_early bus b _ hp _).symm
  · have hop : Opcode.ofCode (bus.read b c.registers.pc) = ⟨_, some i⟩ := congrArg _ hd
    rw [tail_status hm, hop, c.count_prelude bus b i.mode (by decide), List.map_take, tail_phases]
    rfl

theorem writes_of_split (h : c.schedule bus b = past ++ m :: rest) :
    (∀ x ∈ past, x.access.isWrite = false) ∧ (past.map (·.phase)).count .push = 0 ∨
      (∃ mode, decode (bus.read b c.registers.pc) = some ⟨.jsr, mode⟩) ∧
        (past.map (·.phase)).count .push = 1 ∧ m.phase = .push ∧
        ∃ early : List Access, (∀ a ∈ early, a.isWrite = false) ∧ past.map (·.access) =
          early ++ [.write (stackAddress c.registers.sp) (highByte (c.registers.pc + 2))] := by
  rcases schedule_split h with ⟨-, -, hpast⟩ | ⟨i, k, hd, rfl, hm⟩
  · left
    refine ⟨fun x hx => (hpast x hx).1, Phase.count_eq_zero ?_ (by decide)⟩
    intro p hp
    obtain ⟨x, hx, rfl⟩ := List.mem_map.mp hp
    exact (hpast x hx).2
  · have hpush := c.count_prelude bus b i.mode (q := .push) (by decide) ((c.tail bus b i).take k)
    rw [List.map_take, tail_phases] at hpush
    rcases Action.phases_take (tail_phase hm) with hreads | ⟨hcall, rfl, hp⟩
    · left
      have hpaced := c.schedule_paced bus b
      rw [h] at hpaced
      have hwrites := (Moment.paced_append.mp hpaced).1.isWrite_eq
      have hnone : ((i.mnemonic.action.phases i.mode).take k).count .push = 0 :=
        List.count_eq_zero.mpr fun hq => by simpa using hreads _ hq
      refine ⟨fun x hx => ?_, hpush.trans hnone⟩
      rcases List.mem_append.mp hx with hx' | hx'
      · exact (c.prelude_quiet bus b i.mode x hx').2.1
      · have hq : x.phase ∈ (i.mnemonic.action.phases i.mode).take k := by
          rw [← c.tail_phases bus b i, ← List.map_take]
          exact List.mem_map_of_mem hx'
        rcases hreads _ hq with hq | hq <;> simp [hwrites x hx, hq]
    · right
      obtain ⟨mnemonic, mode⟩ := i
      obtain rfl : mnemonic = .jsr := Mnemonic.eq_of_action_call hcall
      obtain rfl : mode = .absolute := eq_of_beq (decode_fits hd)
      refine ⟨⟨_, hd⟩, hpush, hp, (c.prelude bus b .absolute).map (·.access), ?_, ?_⟩
      · intro a ha
        obtain ⟨x, hx, rfl⟩ := List.mem_map.mp ha
        exact (c.prelude_quiet bus b .absolute x hx).2.1
      · have hpc : c.registers.pc + 1 + 2 - 1 = c.registers.pc + 2 := by grind
        simp [tail, Action.tail, Mnemonic.action, pushes, Registers.past_eq,
          AddressingMode.operandBytes, hpc]

theorem made_of_split (h : c.schedule bus b = past ++ m :: rest) :
    let phases := (Opcode.ofCode (bus.read b c.registers.pc)).phases
    phases.take past.length = past.map (·.phase) ∧ phases[past.length]? = some m.phase := by
  rw [← schedule_phases, h]
  simp

/-- What a step leaves that began at the registers `r` with the opcode `op` and failed with `e`,
after the accesses for `made` and in front of one for `refused`, if an access was refused. -/
structure Residue (bus : Bus β) (b : β) (r : Registers) (op : Opcode) (made : List Phase)
    (refused : Option Phase) (e : Fault) (o : Outcome Step β) : Prop where
  a : o.registers.a = r.a
  x : o.registers.x = r.x
  y : o.registers.y = r.y
  sp : o.registers.sp = r.sp + UInt8.ofNat ((made ++ refused.toList).count .pull) -
    UInt8.ofNat (made.count .push)
  pc : o.registers.pc = r.pc + UInt16.ofNat (made.count .fetch)
  status : o.registers.status = op.residualStatus bus b r refused (made.count .pull)
  unwritten : made.count .push = 0 → o.memory = b ∧ ∀ a ∈ o.accesses, a.isWrite = false
  called : made.count .push ≠ 0 →
    (∃ mode, op.instruction = some ⟨.jsr, mode⟩) ∧ made.count .push = 1 ∧ refused = some .push ∧
      o.accesses.filter (·.isWrite) = [.write (stackAddress r.sp) (highByte (r.pc + 2))] ∧
      o.memory = bus.write b (stackAddress r.sp) (highByte (r.pc + 2))
  opcode : made = [] → o.registers = r
  unknown : refused = none →
    op.instruction = none ∧ e = .unimplementedOpcode op.code ∧ made = [.fetch]
  stopped : ∀ p, refused = some p → ∃ addr, e = .outOfBounds addr ∧
    made.count .fetch = (if p = .fetch then made.length else op.size) ∧
    (p = .fetch → addr = r.pc + UInt16.ofNat made.length) ∧
    (p = .push ∨ p = .pull → addr = stackAddress o.registers.sp)

theorem residue_of_split {o : Outcome Step β} (hs : c.schedule bus b = past ++ m :: rest)
    (ha : o.accesses = past.map (·.access)) (hr : o.registers = m.registers)
    (hm : o.memory = o.accesses.foldl bus.served b) :
    Residue bus b c.registers (Opcode.ofCode (bus.read b c.registers.pc)) (past.map (·.phase))
      (some m.phase) (.outOfBounds m.access.addr) o := by
  have hpaced := c.schedule_paced bus b
  rw [hs] at hpaced
  obtain ⟨⟨p, hregs⟩, hplaced⟩ := hpaced.of_split
  obtain ⟨hmade, hdue⟩ := made_of_split hs
  have hfetched := Opcode.count_fetch_take hdue
  rw [hmade] at hfetched
  rw [Registers.advance_eq] at hregs hplaced
  constructor
  case a | x | y | pc => cases hp : m.phase <;> simp [hr, hregs, hp, Phase.attempt]
  case sp =>
    cases hp : m.phase with
    | pull =>
      -- a pull that is refused has raised the stack pointer all the same
      simp [hr, hregs, hp, Phase.attempt, UInt8.ofNat_add]
      grind
    | _ => simp [hr, hregs, hp, Phase.attempt]
  case status => rw [hr, status_of_split hs]
  case unwritten =>
    intro hpush
    rcases writes_of_split hs with ⟨hreads, -⟩ | ⟨-, hone, -⟩
    · have hnone : ∀ a ∈ o.accesses, a.isWrite = false := by
        rw [ha]
        intro a hmem
        obtain ⟨x, hx, rfl⟩ := List.mem_map.mp hmem
        exact hreads x hx
      exact ⟨hm.trans (bus.foldl_served_reads b hnone), hnone⟩
    · omega
  case called =>
    intro hpush
    rcases writes_of_split hs with ⟨-, hnone⟩ | ⟨⟨mode, hd⟩, hone, hp, early, hearly, hlast⟩
    · exact absurd hnone hpush
    · refine ⟨⟨mode, hd⟩, hone, congrArg some hp, ?_, ?_⟩
      · rw [ha, hlast, List.filter_append, List.filter_eq_nil_iff.mpr (by simpa using hearly)]
        rfl
      · rw [hm, ha, hlast, List.foldl_append, bus.foldl_served_reads b hearly]
        rfl
  case opcode =>
    intro hnone
    obtain rfl : past = [] := List.map_eq_nil_iff.mp hnone
    rw [schedule] at hs
    obtain ⟨rfl, -⟩ := List.cons.inj hs
    exact hr
  case unknown => intro h; cases h
  case stopped =>
    intro q hq
    obtain rfl : m.phase = q := Option.some.inj hq
    refine ⟨_, rfl, by simpa using hfetched, ?_, ?_⟩
    · intro hp
      rw [hplaced.addr_eq.1 hp, hfetched, if_pos hp]
      simp
    · intro hp
      rw [hplaced.addr_eq.2 hp, hr, hregs]

theorem residue_of_undocumented {code : UInt8} {o : Outcome Step β} (hd : decode code = none)
    (ha : o.accesses = [.read c.registers.pc code]) (hr : o.registers = c.registers.past 1)
    (hm : o.memory = o.accesses.foldl bus.served b) :
    Residue bus b c.registers (Opcode.ofCode code) [.fetch] none (.unimplementedOpcode code) o := by
  have hop : (Opcode.ofCode code).instruction = none := hd
  constructor
  case a | x | y | pc => simp [hr, Registers.past_eq]
  case sp => simp [hr, Registers.past_eq]
  case status => simp [hr, Registers.past_eq, Opcode.residualStatus, hop]
  case unwritten =>
    intro _
    rw [hm, ha]
    exact ⟨rfl, by simp [Access.isWrite]⟩
  case called => intro h; exact absurd rfl h
  case opcode => intro h; cases h
  case unknown => intro _; exact ⟨hop, rfl, rfl⟩
  case stopped => intro p h; cases h

theorem step_residue {c : Cpu} {bus : Bus β} {b : β} {e : Fault}
    (h : (c.step bus b).result = .error e) :
    let o := c.step bus b
    let op := Opcode.ofCode (bus.read b c.registers.pc)
    let n := o.accesses.length
    Residue bus b c.registers op (op.phases.take n) op.phases[n]? e o := by
  intro o op n
  have hm : o.memory = o.accesses.foldl bus.served b := c.step_memory bus b
  rcases step_error_cases h with ⟨hd, rfl, hr, ha⟩ | ⟨past, m, rest, hs, ha, hr, rfl⟩
  · have hn : n = 1 := congrArg List.length ha
    have hop : op.phases = [.fetch] := by
      rw [Opcode.phases, show op.instruction = none from hd]
      rfl
    rw [hn, hop]
    exact residue_of_undocumented hd ha hr hm
  · have hn : n = past.length := by
      have hacc : o.accesses = _ := ha
      simp [n, hacc]
    obtain ⟨hmade, hdue⟩ := made_of_split hs
    rw [hn, hmade, hdue]
    exact residue_of_split hs ha hr hm

def returns : Bus Unit where
  -- `RTI` wherever something is mapped, which is a page and two bytes
  read _ _ := 0x40
  write _ _ _ := ()
  mapped _ addr := addr < 0x0102

def returning : Cpu := { registers := { Registers.powerOn with sp := 0xFF } }

theorem residue_of_refused_return :
    let o := returning.step returns ()
    let op := Opcode.ofCode 0x40
    o.result = .error (.outOfBounds 0x0102) ∧
      o.registers = { Registers.powerOn with
        sp := 2
        pc := 1
        status := ((Status.mk 0x40).put .breakCommand false).put .unused true } ∧
      op.phases.take o.accesses.length = [.fetch, .pull, .pull] ∧
      op.phases[o.accesses.length]? = some .pull ∧
      Residue returns () returning.registers op (op.phases.take o.accesses.length)
        op.phases[o.accesses.length]? (.outOfBounds 0x0102) o := by
  have h : (returning.step returns ()).result = .error (.outOfBounds 0x0102) := rfl
  refine ⟨h, by decide +kernel, by decide +kernel, by decide +kernel, ?_⟩
  exact step_residue h

end Cpu

end Cpu6502
