import Cpu6502.Proofs.Stack

/-!
Subroutines. Turns are balanced if they leave as much on the stack as they find and never go below
that; what is on the stack then stays there (`Balanced.holds`), and a call with a balanced subroutine
and its return is balanced itself (`Balanced.call`). A call puts the address of its own last byte on
the stack, so the return goes on behind the call (`Cpu.call_returns`). How much is on the stack is asked
for between instructions only: none both pushes and pulls, so its bytes stay in the same bounds
(`Cpu.depth_mem`).
-/

namespace Cpu6502

variable {β : Type}

theorem StackEvent.change_of? {p : Phase} {a : Access} {e : StackEvent} (h : of? p a = some e) :
    p = .push ∧ e.change = 1 ∨ p = .pull ∧ e.change = -1 := by
  cases p <;> cases a <;> cases h
  · exact .inl ⟨rfl, rfl⟩
  · exact .inr ⟨rfl, rfl⟩

theorem Opcode.phases_oneWay (o : Opcode) : .pull ∉ o.phases ∨ .push ∉ o.phases := by
  unfold phases
  cases o.instruction with
  | none => exact .inl (by decide)
  | some i =>
    have hmode : .pull ∉ i.mode.phases ∧ .push ∉ i.mode.phases := by cases i.mode <;> decide
    have hact : .pull ∉ i.mnemonic.action.phases i.mode ∨
        .push ∉ i.mnemonic.action.phases i.mode := by
      cases i.mnemonic.action <;> simp only [Action.phases] <;>
        first | decide | (split <;> decide)
    simpa [Instruction.phases, hmode] using hact

theorem Turn.stackEvents_oneWay (bus : Bus β) (t : Turn β) :
    StackEvent.OneWay (t.stackEvents bus) := by
  have hmem : ∀ e ∈ t.stackEvents bus, .push ∈ (t.opcode bus).phases ∧ e.change = 1 ∨
      .pull ∈ (t.opcode bus).phases ∧ e.change = -1 := by
    intro e he
    obtain ⟨⟨p, a⟩, hpa, hof⟩ := List.mem_filterMap.mp he
    have hp := (List.of_mem_zip hpa).1
    rcases StackEvent.change_of? hof with ⟨rfl, hc⟩ | ⟨rfl, hc⟩
    · exact .inl ⟨hp, hc⟩
    · exact .inr ⟨hp, hc⟩
  rcases (t.opcode bus).phases_oneWay with hpull | hpush
  · exact .inl fun e he => ((hmem e he).resolve_right fun h => hpull h.1).2
  · exact .inr fun e he => ((hmem e he).resolve_left fun h => hpush h.1).2

theorem Moment.Paced.depth_eq {r : Registers} {ms : List Moment} (h : Paced r ms) :
    StackEvent.depth (ms.filterMap stackEvent?) =
      ((ms.map (·.phase)).count .push : Int) - (ms.map (·.phase)).count .pull := by
  induction ms generalizing r with
  | nil => rfl
  | cons x ms ih =>
    obtain ⟨-, hplaced, hpaced⟩ := h
    have hrest := ih hpaced
    obtain ⟨phase, regs, access⟩ := x
    cases phase with
    | fetch | pointer | load | store =>
      cases access <;> exact hrest
    | push =>
      cases access with
      | read addr v => exact hplaced.elim
      | write addr v =>
        simp [stackEvent?, StackEvent.of?, StackEvent.depth, StackEvent.change, hrest]
        omega
    | pull =>
      cases access with
      | write addr v => exact hplaced.elim
      | read addr v =>
        simp [stackEvent?, StackEvent.of?, StackEvent.depth, StackEvent.change, hrest]
        omega

namespace Cpu

section Depth

variable {c : Cpu} {bus : Bus β} {b : β} {n : Nat}

theorem stackEvents_succ (c : Cpu) (bus : Bus β) (b : β) (n : Nat) :
    let o := c.step bus b
    c.stackEvents bus b (n + 1) = Turn.stackEvents bus ⟨c.registers, b, o⟩ ++
      stackEvents { c with registers := o.registers } bus o.memory n :=
  List.flatMap_cons

theorem stackEvents_add (c : Cpu) (bus : Bus β) (b : β) (j k : Nat) :
    c.stackEvents bus b (j + k) =
      c.stackEvents bus b j ++ (c.after bus b j).1.stackEvents bus (c.after bus b j).2 k := by
  rw [stackEvents, turns_add, List.flatMap_append]
  rfl

theorem depth_mem {lo hi : Int}
    (h : ∀ k ≤ n, lo ≤ StackEvent.depth (c.stackEvents bus b k) ∧
      StackEvent.depth (c.stackEvents bus b k) ≤ hi) :
    ∀ past, past <+: c.stackEvents bus b n →
      lo ≤ StackEvent.depth past ∧ StackEvent.depth past ≤ hi := by
  induction n with
  | zero =>
    intro past hp
    obtain rfl : past = [] := List.prefix_nil.mp hp
    exact h 0 (Nat.le_refl 0)
  | succ n ih =>
    intro past hp
    have hstart := h n n.le_succ
    have hend := h (n + 1) (Nat.le_refl _)
    have hlast : StackEvent.OneWay
        ((c.after bus b n).1.stackEvents bus (c.after bus b n).2 1) := by
      simpa [stackEvents, turns] using Turn.stackEvents_oneWay bus _
    rw [stackEvents_add] at hp hend
    rcases List.prefix_or_prefix_of_prefix hp (List.prefix_append _ _) with hp' | ⟨p, rfl⟩
    · exact ih (fun k hk => h k (Nat.le_succ_of_le hk)) past hp'
    · have hp := (List.prefix_append_right_inj _).mp hp
      rw [StackEvent.depth_append] at hend ⊢
      exact hlast.depth_mem hp hstart hend

theorem step_depth {i : Instruction} {a : Step} (hd : decode (bus.read b c.registers.pc) = some i)
    (h : (c.step bus b).result = .ok a) :
    StackEvent.depth (Turn.stackEvents bus ⟨c.registers, b, c.step bus b⟩) =
      (i.phases.count .push : Int) - i.phases.count .pull := by
  have hphases : (Opcode.ofCode (bus.read b c.registers.pc)).phases = .fetch :: i.phases := by
    rw [Opcode.ofCode, hd]
    rfl
  rw [stackEvents_of_step h, (c.schedule_paced bus b).depth_eq, schedule_phases, hphases]
  simp

end Depth

variable {c : Cpu} {m : FlatMemory} {n : Nat} {room : Int}

/-- `n` turns that leave as much on the stack as they find, and between them never less than that
nor more than `room` bytes beyond it. -/
structure Balanced (c : Cpu) (m : FlatMemory) (n : Nat) (room : Int) : Prop where
  succeeds : ∀ t ∈ c.turns FlatMemory.bus m n, t.Succeeds
  spares : ∀ t ∈ c.turns FlatMemory.bus m n, t.SparesStack FlatMemory.bus
  between : ∀ k ≤ n, 0 ≤ StackEvent.depth (c.stackEvents FlatMemory.bus m k) ∧
    StackEvent.depth (c.stackEvents FlatMemory.bus m k) ≤ room
  level : StackEvent.depth (c.stackEvents FlatMemory.bus m n) = 0

theorem Balanced.refl (c : Cpu) (m : FlatMemory) (hroom : 0 ≤ room) : c.Balanced m 0 room where
  succeeds := List.forall_mem_nil _
  spares := List.forall_mem_nil _
  between k hk := by
    obtain rfl : k = 0 := Nat.le_zero.mp hk
    exact ⟨Int.le_refl 0, hroom⟩
  level := rfl

theorem Balanced.holds {base : UInt8} {st : List UInt8} (h : c.Balanced m n room)
    (hroom : room + st.length ≤ 256) (hm : m.Holds base c.registers.sp st) :
    (c.after FlatMemory.bus m n).2.Holds base (c.after FlatMemory.bus m n).1.registers.sp st := by
  have hbetween := depth_mem h.between
  have hfits : StackEvent.Fits st.length (c.stackEvents FlatMemory.bus m n) := by
    intro past hp
    have hb := hbetween past hp
    omega
  obtain ⟨st', hreplay, hholds⟩ := turns_replay h.succeeds h.spares hfits hm
  have habove : StackEvent.replay ([] ++ st) (c.stackEvents FlatMemory.bus m n) = some st' :=
    hreplay
  obtain ⟨top, rfl⟩ := StackEvent.replay_below habove fun past hp => by
    simpa using (hbetween past hp).1
  have hlen := StackEvent.length_replay hreplay
  rw [List.length_append, h.level] at hlen
  obtain rfl : top = [] := List.length_eq_zero_iff.mp (by omega)
  exact hholds

theorem step_call (hd : decode (m.read c.registers.pc) = some ⟨.jsr, .absolute⟩) :
    let o := c.step FlatMemory.bus m
    let r := c.registers
    let w := r.pc + 2
    o.result = .ok .proceed ∧
      o.registers =
        { r with pc := wordOf (m.read (r.pc + 1)) (m.read (r.pc + 2)), sp := r.sp - 1 - 1 } ∧
      o.memory = (m.write (stackAddress r.sp) (highByte w)).write (stackAddress (r.sp - 1))
        (lowByte w) := by
  intro o r w
  have hpc : r.pc + 1 + 1 = r.pc + 2 := by grind
  have hw : r.pc + 1 + 1 + 1 - 1 = w := by grind
  obtain ⟨hresult, hregisters, -⟩ := step_flat hd
  refine ⟨hresult, hregisters.trans ?_, (memory_of_tail hd).trans ?_⟩
  · rw [← hpc]
    rfl
  · rw [← hw]
    rfl

theorem read_call (hd : decode (m.read c.registers.pc) = some ⟨.jsr, .absolute⟩) {a : UInt16}
    (ha : ¬ InStack a) : (c.step FlatMemory.bus m).memory.read a = m.read a := by
  have hne (sp : UInt8) : stackAddress sp ≠ a := fun h => ha (h ▸ inStack_stackAddress sp)
  rw [(step_call hd).2.2, FlatMemory.read_write, FlatMemory.read_write, if_neg (hne _),
    if_neg (hne _)]

theorem holds_call (hd : decode (m.read c.registers.pc) = some ⟨.jsr, .absolute⟩) :
    (c.step FlatMemory.bus m).memory.Holds c.registers.sp (c.step FlatMemory.bus m).registers.sp
      [lowByte (c.registers.pc + 2), highByte (c.registers.pc + 2)] := by
  obtain ⟨-, hregisters, hmemory⟩ := step_call hd
  rw [hregisters, hmemory]
  exact ((FlatMemory.Holds.nil m c.registers.sp).push (by decide) _).push (by simp) _

theorem step_return (hd : decode (m.read c.registers.pc) = some ⟨.rts, .implicit⟩) :
    let o := c.step FlatMemory.bus m
    let r := c.registers
    let w := wordOf (m.read (stackAddress (r.sp + 1))) (m.read (stackAddress (r.sp + 1 + 1)))
    o.result = .ok .proceed ∧ o.registers = { r with pc := w + 1, sp := r.sp + 1 + 1 } ∧
      o.memory = m :=
  ⟨(step_flat hd).1, (step_flat hd).2.1, memory_of_tail hd⟩

theorem return_held {base lo hi : UInt8} (hm : m.Holds base c.registers.sp [lo, hi])
    (hd : decode (m.read c.registers.pc) = some ⟨.rts, .implicit⟩) :
    (c.step FlatMemory.bus m).registers =
      { c.registers with pc := wordOf lo hi + 1, sp := base } := by
  have hlo : m.read (stackAddress (c.registers.sp + 1)) = lo := hm.top
  have hhi : m.read (stackAddress (c.registers.sp + 1 + 1)) = hi := hm.pull.top
  have hsp : c.registers.sp + 1 + 1 = base := by simpa using hm.pull.pull.sp_eq
  obtain ⟨-, hregisters, -⟩ := step_return hd
  rw [hregisters, hlo, hhi, hsp]

theorem Balanced.call (hcall : decode (m.read c.registers.pc) = some ⟨.jsr, .absolute⟩)
    {body : Cpu} (hbody : body = { c with registers := (c.step FlatMemory.bus m).registers })
    {called : FlatMemory} (hcalled : called = (c.step FlatMemory.bus m).memory)
    (h : body.Balanced called n room)
    (hreturn : decode ((body.after FlatMemory.bus called n).2.read
      (body.after FlatMemory.bus called n).1.registers.pc) = some ⟨.rts, .implicit⟩) :
    c.Balanced m (n + 2) (room + 2) := by
  obtain ⟨hok, -, -⟩ := step_call hcall
  obtain ⟨hok', -, -⟩ := step_return hreturn
  have hpush : StackEvent.depth _ = 2 := step_depth hcall hok
  have hpull : StackEvent.depth _ = -2 := step_depth hreturn hok'
  have hroom := h.between 0 n.zero_le
  -- the depth after the call, in the subroutine and after the return
  have hinside (k : Nat) : StackEvent.depth (c.stackEvents FlatMemory.bus m (k + 1)) =
      2 + StackEvent.depth (body.stackEvents FlatMemory.bus called k) := by
    rw [stackEvents_succ, StackEvent.depth_append, hpush, hbody, hcalled]
  have hend : StackEvent.depth (c.stackEvents FlatMemory.bus m (n + 2)) = 0 := by
    rw [hinside (n + 1), stackEvents_add, StackEvent.depth_append, h.level]
    have hlast : StackEvent.depth ((body.after FlatMemory.bus called n).1.stackEvents FlatMemory.bus
        (body.after FlatMemory.bus called n).2 1) = -2 := by
      simpa [stackEvents, turns] using hpull
    omega
  have hturns : c.turns FlatMemory.bus m (n + 2) = ⟨c.registers, m, c.step FlatMemory.bus m⟩ ::
      (body.turns FlatMemory.bus called n ++
        (body.after FlatMemory.bus called n).1.turns FlatMemory.bus
          (body.after FlatMemory.bus called n).2 1) := by
    rw [← turns_add, hbody, hcalled]
    rfl
  constructor
  case succeeds =>
    rw [hturns, List.forall_mem_cons, List.forall_mem_append]
    exact ⟨⟨_, hok⟩, h.succeeds, List.forall_mem_singleton.mpr ⟨_, hok'⟩⟩
  case spares =>
    rw [hturns, List.forall_mem_cons, List.forall_mem_append]
    exact ⟨sparesStack_of_decode hcall (by decide) (by decide), h.spares,
      List.forall_mem_singleton.mpr (sparesStack_of_decode hreturn (by decide) (by decide))⟩
  case between =>
    intro k hk
    rcases k with _ | k
    · have hzero : StackEvent.depth (c.stackEvents FlatMemory.bus m 0) = 0 := rfl
      omega
    · rw [hinside]
      rcases Nat.lt_or_ge n k with hlt | hle
      · obtain rfl : k = n + 1 := by omega
        rw [← hinside, hend]
        omega
      · have hb := h.between k hle
        omega
  case level => exact hend

theorem Balanced.returns (hcall : decode (m.read c.registers.pc) = some ⟨.jsr, .absolute⟩)
    {body : Cpu} (hbody : body = { c with registers := (c.step FlatMemory.bus m).registers })
    {called : FlatMemory} (hcalled : called = (c.step FlatMemory.bus m).memory)
    (h : body.Balanced called n 254) :
    let s := body.after FlatMemory.bus called n
    decode (s.2.read s.1.registers.pc) = some ⟨.rts, .implicit⟩ →
      (s.1.step FlatMemory.bus s.2).registers =
        { s.1.registers with pc := c.registers.pc + 3, sp := c.registers.sp } := by
  intro s hreturn
  have hheld : s.2.Holds c.registers.sp s.1.registers.sp
      [lowByte (c.registers.pc + 2), highByte (c.registers.pc + 2)] := by
    refine h.holds (by simp) ?_
    rw [hbody, hcalled]
    exact holds_call hcall
  have hpc : wordOf (lowByte (c.registers.pc + 2)) (highByte (c.registers.pc + 2)) + 1 =
      c.registers.pc + 3 := by
    rw [wordOf_bytes]
    grind
  rw [return_held hheld hreturn, hpc]

/-- A subroutine that leaves the stack as it was called with returns behind its call, whatever it has
pushed and pulled above the return address, and with the stack pointer from before the call. -/
theorem call_returns (hcall : decode (m.read c.registers.pc) = some ⟨.jsr, .absolute⟩) (n : Nat) :
    let bus := FlatMemory.bus
    let r := c.registers
    let called := c.step bus m
    let body : Cpu := { c with registers := called.registers }
    let s := body.after bus called.memory n
    let returned := s.1.step bus s.2
    (called.result = .ok .proceed ∧ called.registers =
        { r with pc := wordOf (m.read (r.pc + 1)) (m.read (r.pc + 2)), sp := r.sp - 2 }) ∧
      (body.Balanced called.memory n 254 →
        decode (s.2.read s.1.registers.pc) = some ⟨.rts, .implicit⟩ →
        returned.result = .ok .proceed ∧
          returned.registers = { s.1.registers with pc := r.pc + 3, sp := r.sp }) := by
  intro bus r called body s returned
  obtain ⟨hresult, hregisters, -⟩ := step_call hcall
  have hsp : r.sp - 1 - 1 = r.sp - 2 := by grind
  refine ⟨⟨hresult, hregisters.trans (by rw [hsp])⟩, fun hbody hreturn => ?_⟩
  exact ⟨(step_return hreturn).1, hbody.returns hcall rfl rfl hreturn⟩

theorem call_of_return (hcall : decode (m.read c.registers.pc) = some ⟨.jsr, .absolute⟩)
    {target : UInt16}
    (htarget : wordOf (m.read (c.registers.pc + 1)) (m.read (c.registers.pc + 2)) = target)
    (hstack : ¬ InStack target) (hreturn : decode (m.read target) = some ⟨.rts, .implicit⟩) :
    let s := c.after FlatMemory.bus m 2
    c.Balanced m 2 254 ∧ s.1.registers = { c.registers with pc := c.registers.pc + 3 } ∧
      ∀ a, ¬ InStack a → s.2.read a = m.read a := by
  intro s
  obtain ⟨-, hregisters, -⟩ := step_call hcall
  obtain ⟨body, hbody⟩ : ∃ body : Cpu,
    body = { c with registers := (c.step FlatMemory.bus m).registers } := ⟨_, rfl⟩
  obtain ⟨called, hcalled⟩ : ∃ called, called = (c.step FlatMemory.bus m).memory := ⟨_, rfl⟩
  have hkept (a : UInt16) (ha : ¬ InStack a) : called.read a = m.read a := by
    rw [hcalled, read_call hcall ha]
  have hback : decode (called.read body.registers.pc) = some ⟨.rts, .implicit⟩ := by
    rw [hbody, hregisters, htarget, hkept target hstack, hreturn]
  have hnone : body.Balanced called 0 252 := .refl body called (by decide)
  have hafter : s = ({ body with registers := (body.step FlatMemory.bus called).registers },
      (body.step FlatMemory.bus called).memory) := by
    rw [hbody, hcalled]
    rfl
  have hreturned := (Balanced.refl body called (by decide)).returns hcall hbody hcalled hback
  refine ⟨hnone.call hcall hbody hcalled hback, ?_, fun a ha => ?_⟩
  · rw [hafter]
    refine hreturned.trans ?_
    rw [after, hbody, hregisters]
  · rw [hafter, ← hkept a ha, (step_return hback).2.2]

def nestedCall : FlatMemory :=
  -- a call at the top of memory of a routine at the bottom, which calls the return behind its call
  (((FlatMemory.zeroed.write 0xFFFD 0x20).write 0 0x20).write 1 0x03).write 3 0x60

def calling : Cpu := { registers := { Registers.powerOn with sp := 1, pc := 0xFFFD } }

theorem nestedCall_read (a : UInt16) : nestedCall.read a =
    if a = 3 then 0x60 else if a = 1 then 0x03 else if a = 0 ∨ a = 0xFFFD then 0x20 else 0 := by
  simp only [nestedCall, FlatMemory.read_write, FlatMemory.read_zeroed, eq_comm (b := a)]
  grind

theorem nestedCall_balanced {body : Cpu} {m : FlatMemory}
    (hbody : body = ⟨(calling.step FlatMemory.bus nestedCall).registers, calling.policy⟩)
    (hm : m = (calling.step FlatMemory.bus nestedCall).memory) :
    body.Balanced m 2 254 ∧ decode ((body.after FlatMemory.bus m 2).2.read
      (body.after FlatMemory.bus m 2).1.registers.pc) = some ⟨.rts, .implicit⟩ := by
  have hcall : decode (nestedCall.read calling.registers.pc) = some ⟨.jsr, .absolute⟩ := by
    rw [nestedCall_read]
    rfl
  obtain ⟨-, hregisters, -⟩ := step_call hcall
  have hregs : body.registers = { calling.registers with pc := 0, sp := 0xFF } := by
    rw [hbody, hregisters, nestedCall_read, nestedCall_read]
    rfl
  have hcode : m.read 0 = 0x20 ∧ m.read 1 = 0x03 ∧ m.read 2 = 0 ∧ m.read 3 = 0x60 := by
    have hread (a : UInt16) (ha : ¬ InStack a) : m.read a = nestedCall.read a := by
      rw [hm, read_call hcall ha]
    simp [hread, nestedCall_read, InStack]
  have hnested : decode (m.read body.registers.pc) = some ⟨.jsr, .absolute⟩ := by
    rw [hregs, hcode.1]
    rfl
  have hback : decode (m.read 3) = some ⟨.rts, .implicit⟩ := by
    rw [hcode.2.2.2]
    rfl
  have htarget : wordOf (m.read (body.registers.pc + 1)) (m.read (body.registers.pc + 2)) = 3 := by
    rw [hregs]
    change wordOf (m.read 1) (m.read 2) = 3
    rw [hcode.2.1, hcode.2.2.1]
    rfl
  obtain ⟨hbalanced, hafter, hkept⟩ := call_of_return hnested htarget (by simp [InStack]) hback
  refine ⟨hbalanced, ?_⟩
  rw [hafter, hregs, hkept _ (by simp [InStack])]
  exact hback

theorem call_returns_around_the_top :
    let bus := FlatMemory.bus
    let called := calling.step bus nestedCall
    let body : Cpu := ⟨called.registers, calling.policy⟩
    let s := body.after bus called.memory 2
    decode (nestedCall.read calling.registers.pc) = some ⟨.jsr, .absolute⟩ ∧
      body.Balanced called.memory 2 254 ∧
      decode (s.2.read s.1.registers.pc) = some ⟨.rts, .implicit⟩ ∧
      (s.1.step bus s.2).registers = { s.1.registers with pc := 0, sp := 1 } := by
  have hcall : decode (nestedCall.read calling.registers.pc) = some ⟨.jsr, .absolute⟩ := by
    rw [nestedCall_read]
    rfl
  obtain ⟨hbalanced, hreturn⟩ := nestedCall_balanced rfl rfl
  exact ⟨hcall, hbalanced, hreturn, ((call_returns hcall 2).2 hbalanced hreturn).2⟩

end Cpu

end Cpu6502
