import Cpu6502.Proofs.Turn

/-!
Page one as a stack. What a run pushes and pulls is read off the accesses of its turns, byte by
byte. As long as no more than a page is on the stack and only the stack instructions touch it,
page one holds the bytes that were pushed and not pulled, and every pull answers its push
(`Cpu.stack_lifo`), wherever the stack pointer started.
-/

namespace Cpu6502

variable {β : Type}

inductive StackEvent where
  | push (v : UInt8)
  | pull (v : UInt8)
deriving DecidableEq

namespace StackEvent

def of? : Phase → Access → Option StackEvent
  | .push, .write _ v => some (.push v)
  | .pull, .read _ v => some (.pull v)
  | _, _ => none

def change : StackEvent → Int
  | .push _ => 1
  | .pull _ => -1

def depth : List StackEvent → Int
  | [] => 0
  | e :: es => e.change + depth es

/-- The stack that the events make of `st`, top first, if every pull gives the top of its stack. -/
def replay : List UInt8 → List StackEvent → Option (List UInt8)
  | st, [] => some st
  | st, .push v :: es => replay (v :: st) es
  | [], .pull _ :: _ => none
  | w :: st, .pull v :: es => if v = w then replay st es else none

/-- From `d` bytes on, there is never less than nothing on the stack nor more than a page. -/
def Fits (d : Int) (es : List StackEvent) : Prop :=
  ∀ past, past <+: es → 0 ≤ d + depth past ∧ d + depth past ≤ 256

theorem depth_append (es fs : List StackEvent) : depth (es ++ fs) = depth es + depth fs := by
  induction es with
  | nil => simp [depth]
  | cons e es ih => simp [depth, ih, Int.add_assoc]

theorem replay_append (st : List UInt8) (es fs : List StackEvent) :
    replay st (es ++ fs) = (replay st es).bind fun s => replay s fs := by
  induction es generalizing st with
  | nil => rfl
  | cons e es ih =>
    cases e with
    | push v => exact ih (v :: st)
    | pull v =>
      cases st with
      | nil => rfl
      | cons w st =>
        simp only [List.cons_append, replay]
        split
        · exact ih st
        · rfl

theorem length_replay {st st' : List UInt8} {es : List StackEvent} (h : replay st es = some st') :
    (st'.length : Int) = st.length + depth es := by
  induction es generalizing st with
  | nil =>
    cases h
    simp [depth]
  | cons e es ih =>
    cases e with
    | push v =>
      have hl : (st'.length : Int) = (v :: st).length + depth es := ih h
      simp only [depth, change, List.length_cons] at hl ⊢
      omega
    | pull v =>
      cases st with
      | nil => cases h
      | cons w st =>
        simp only [replay] at h
        split at h
        · have hl := ih h
          simp only [depth, change, List.length_cons] at hl ⊢
          omega
        · cases h

theorem Fits.bounds {d : Int} {es : List StackEvent} (h : Fits d es) : 0 ≤ d ∧ d ≤ 256 := by
  simpa [depth] using h [] List.nil_prefix

theorem Fits.append {d : Int} {es fs : List StackEvent} (h : Fits d (es ++ fs)) :
    Fits d es ∧ Fits (d + depth es) fs := by
  refine ⟨fun past hp => h past (hp.trans (List.prefix_append _ _)), fun past hp => ?_⟩
  have hb := h (es ++ past) ((List.prefix_append_right_inj es).mpr hp)
  rwa [depth_append, ← Int.add_assoc] at hb

theorem fits_nil {d : Int} : Fits d [] ↔ 0 ≤ d ∧ d ≤ 256 := by
  simp [Fits, depth]

theorem fits_cons {d : Int} {e : StackEvent} {es : List StackEvent} :
    Fits d (e :: es) ↔ (0 ≤ d ∧ d ≤ 256) ∧ Fits (d + e.change) es := by
  have hone : depth [e] = e.change := by simp [depth]
  constructor
  · intro h
    have hsplit : Fits d ([e] ++ es) := h
    have hes := hsplit.append.2
    rw [hone] at hes
    exact ⟨h.bounds, hes⟩
  · rintro ⟨hd, hes⟩ past hp
    rcases List.prefix_cons_iff.mp hp with rfl | ⟨t, rfl, ht⟩
    · simpa [depth] using hd
    · have ht := hes t ht
      rw [← hone, Int.add_assoc, ← depth_append] at ht
      exact ht

theorem replay_below {st below st' : List UInt8} {es : List StackEvent}
    (h : replay (st ++ below) es = some st')
    (hn : ∀ past, past <+: es → 0 ≤ (st.length : Int) + depth past) :
    ∃ top, st' = top ++ below := by
  induction es generalizing st with
  | nil =>
    cases h
    exact ⟨st, rfl⟩
  | cons e es ih =>
    cases e with
    | push v =>
      have hpushed : replay ((v :: st) ++ below) es = some st' := h
      refine ih hpushed fun past hp => ?_
      have hpast := hn (.push v :: past) ((List.prefix_cons_inj _).mpr hp)
      simp only [depth, change, List.length_cons] at hpast ⊢
      omega
    | pull v =>
      cases st with
      | nil =>
        have hone := hn [.pull v] ((List.prefix_cons_inj _).mpr List.nil_prefix)
        simp [depth, change] at hone
      | cons w st =>
        simp only [List.cons_append, replay] at h
        split at h
        · refine ih h fun past hp => ?_
          have hpast := hn (.pull v :: past) ((List.prefix_cons_inj _).mpr hp)
          simp only [depth, change, List.length_cons] at hpast ⊢
          omega
        · cases h

def OneWay (es : List StackEvent) : Prop :=
  (∀ e ∈ es, e.change = 1) ∨ ∀ e ∈ es, e.change = -1

theorem depth_of_change {d : Int} {es : List StackEvent} (h : ∀ e ∈ es, e.change = d) :
    depth es = d * es.length := by
  induction es with
  | nil => simp [depth]
  | cons e es ih =>
    obtain ⟨he, hes⟩ := List.forall_mem_cons.mp h
    rw [depth, he, ih hes, List.length_cons]
    grind

theorem OneWay.depth_mem {lo hi d : Int} {es past : List StackEvent} (h : OneWay es)
    (hp : past <+: es) (hstart : lo ≤ d ∧ d ≤ hi) (hend : lo ≤ d + depth es ∧ d + depth es ≤ hi) :
    lo ≤ d + depth past ∧ d + depth past ≤ hi := by
  have hle := hp.length_le
  rcases h with h | h
  · rw [depth_of_change h] at hend
    rw [depth_of_change fun e he => h e (hp.subset he)]
    omega
  · rw [depth_of_change h] at hend
    rw [depth_of_change fun e he => h e (hp.subset he)]
    omega

end StackEvent

def Moment.stackEvent? (m : Moment) : Option StackEvent := StackEvent.of? m.phase m.access

def InStack (addr : UInt16) : Prop := 0x0100 ≤ addr ∧ addr ≤ 0x01FF

theorem inStack_iff {addr : UInt16} : InStack addr ↔ 256 ≤ addr.toNat ∧ addr.toNat < 512 := by
  simp only [InStack, UInt16.le_iff_toNat_le]
  constructor
  · rintro ⟨hl, hr⟩
    exact ⟨hl, Nat.lt_succ_of_le hr⟩
  · rintro ⟨hl, hr⟩
    exact ⟨hl, Nat.le_of_lt_succ hr⟩

theorem inStack_stackAddress (sp : UInt8) : InStack (stackAddress sp) := by
  have hs := sp.toNat_lt
  rw [inStack_iff, toNat_stackAddress]
  omega

theorem stackAddress_inj {s t : UInt8} : stackAddress s = stackAddress t ↔ s = t := by
  rw [← UInt16.toNat_inj, toNat_stackAddress, toNat_stackAddress, Nat.add_left_cancel_iff,
    UInt8.toNat_inj]

/-- Page one above the stack pointer holds `st`, top first, and nothing was there when the stack
pointer was `base`. -/
structure FlatMemory.Holds (m : FlatMemory) (base sp : UInt8) (st : List UInt8) : Prop where
  length_le : st.length ≤ 256
  sp_eq : sp = base - UInt8.ofNat st.length
  read_eq : ∀ j (h : j < st.length), m.read (stackAddress (sp + 1 + UInt8.ofNat j)) = st[j]

namespace FlatMemory.Holds

variable {m : FlatMemory} {base sp : UInt8} {st : List UInt8}

theorem nil (m : FlatMemory) (sp : UInt8) : m.Holds sp sp [] :=
  ⟨by simp, by simp, fun j h => absurd h (Nat.not_lt_zero j)⟩

theorem write (h : m.Holds base sp st) {addr : UInt16} (ha : ¬ InStack addr) (v : UInt8) :
    (m.write addr v).Holds base sp st := by
  refine ⟨h.length_le, h.sp_eq, fun j hj => ?_⟩
  have hne : addr ≠ stackAddress (sp + 1 + UInt8.ofNat j) := by
    rintro rfl
    exact ha (inStack_stackAddress _)
  rw [read_write, if_neg hne]
  exact h.read_eq j hj

theorem push (h : m.Holds base sp st) (hl : st.length < 256) (v : UInt8) :
    (m.write (stackAddress sp) v).Holds base (sp - 1) (v :: st) := by
  refine ⟨hl, ?_, fun j hj => ?_⟩
  · rw [h.sp_eq, List.length_cons, UInt8.ofNat_add]
    grind
  · cases j with
    | zero => simp [read_write]
    | succ j =>
      have hj : j < st.length := Nat.lt_of_succ_lt_succ hj
      have hsp : sp - 1 + 1 + UInt8.ofNat (j + 1) = sp + 1 + UInt8.ofNat j := by
        rw [UInt8.ofNat_add]
        grind
      -- the ring is not full, so the cells in use are not the one that is written
      have hne : stackAddress sp ≠ stackAddress (sp + 1 + UInt8.ofNat j) := by
        rw [Ne, stackAddress_inj, ← UInt8.toNat_inj]
        simp only [UInt8.toNat_add, UInt8.toNat_one, UInt8.toNat_ofNat']
        have hlt := sp.toNat_lt
        omega
      rw [hsp, read_write, if_neg hne]
      exact h.read_eq j hj

theorem pull {v : UInt8} (h : m.Holds base sp (v :: st)) : m.Holds base (sp + 1) st := by
  have hlen := h.length_le
  refine ⟨Nat.le_of_succ_le hlen, ?_, fun j hj => ?_⟩
  · rw [h.sp_eq, List.length_cons, UInt8.ofNat_add]
    grind
  · have hread := h.read_eq (j + 1) (Nat.succ_lt_succ hj)
    rw [List.getElem_cons_succ, UInt8.ofNat_add] at hread
    rw [← hread]
    congr 2
    grind

theorem top {v : UInt8} (h : m.Holds base sp (v :: st)) : m.read (stackAddress (sp + 1)) = v := by
  simpa using h.read_eq 0 (Nat.succ_pos _)

theorem replay_moments {r : Registers} {ms : List Moment} (h : m.Holds base r.sp st)
    (hpaced : Moment.Paced r ms) (hserves : FlatMemory.bus.Serves m (ms.map (·.access)))
    (hstore : ∀ x ∈ ms, x.phase = .store → ¬ InStack x.access.addr)
    (hfits : StackEvent.Fits st.length (ms.filterMap Moment.stackEvent?)) :
    ∃ st', StackEvent.replay st (ms.filterMap Moment.stackEvent?) = some st' ∧
      ((ms.map (·.access)).foldl FlatMemory.bus.served m).Holds base
        (r.advance (ms.map (·.phase))).sp st' := by
  -- in front of every access the ring holds what has been pushed so far and not pulled
  induction ms generalizing r m st with
  | nil => exact ⟨st, rfl, h⟩
  | cons x ms ih =>
    obtain ⟨-, hplaced, hpaced⟩ := hpaced
    obtain ⟨-, hanswer, hserves⟩ := hserves
    have hstore' := fun y hy => hstore y (List.mem_cons_of_mem _ hy)
    have hx := hstore x List.mem_cons_self
    obtain ⟨phase, regs, access⟩ := x
    cases phase with
    | fetch | pointer | load =>
      cases access with
      | read addr v => exact ih h hpaced hserves hstore' hfits
      | write addr v => exact hplaced.elim
    | store =>
      cases access with
      | read addr v => exact hplaced.elim
      | write addr v => exact ih (h.write (hx rfl) v) hpaced hserves hstore' hfits
    | push =>
      cases access with
      | read addr v => exact hplaced.elim
      | write addr v =>
        obtain rfl : addr = stackAddress r.sp := hplaced
        have hrest := (StackEvent.fits_cons (e := .push v)).mp hfits |>.2
        have hlt : st.length < 256 := by
          have hle : (st.length : Int) + 1 ≤ 256 := hrest.bounds.2
          omega
        exact ih (h.push hlt v) hpaced hserves hstore' hrest
    | pull =>
      cases access with
      | write addr v => exact hplaced.elim
      | read addr v =>
        obtain rfl : addr = stackAddress (r.sp + 1) := hplaced
        have hrest := (StackEvent.fits_cons (e := .pull v)).mp hfits |>.2
        cases st with
        | nil =>
          have hge : (0 : Int) ≤ 0 + -1 := hrest.bounds.1
          omega
        | cons w st =>
          obtain rfl : v = w := Eq.trans hanswer h.top
          have hd : ((v :: st).length : Int) + -1 = st.length := by
            rw [List.length_cons]
            omega
          rw [StackEvent.change, hd] at hrest
          obtain ⟨st', hreplay, hholds⟩ := ih h.pull hpaced hserves hstore' hrest
          refine ⟨st', ?_, hholds⟩
          rw [← hreplay]
          exact if_pos rfl

end FlatMemory.Holds

namespace Turn

def stackEvents (bus : Bus β) (t : Turn β) : List StackEvent :=
  ((t.opcode bus).phases.zip t.outcome.accesses).filterMap fun p => StackEvent.of? p.1 p.2

def SparesStack (bus : Bus β) (t : Turn β) : Prop :=
  ∀ i, (t.opcode bus).instruction = some i → i.mnemonic ≠ .txs ∧
    (.store ∈ i.phases → ¬ InStack (i.mode.address (bus.read t.memory) (t.before.past 1)))

end Turn

theorem Mnemonic.finish_sp {m : Mnemonic} (h : m ≠ .txs) (bus : Bus β) (b : β)
    (mode : AddressingMode) (e : UInt16) (s : Registers) :
    (m.action.finish bus b mode e s).sp = (s.advance (m.action.phases mode)).sp := by
  cases m with
  | txs => exact absurd rfl h
  | inc | dec | asl | lsr | rol | ror => cases mode <;> rfl
  | lda | ldx | ldy | adc | sbc | and | ora | eor | cmp | cpx | cpy | bit => cases mode <;> rfl
  | bcc | bcs | beq | bne | bmi | bpl | bvc | bvs =>
    simp only [action, Action.finish]
    split <;> rfl
  | _ => rfl

namespace Cpu

variable {c : Cpu} {bus : Bus β} {b : β}

def stackEvents (c : Cpu) (bus : Bus β) (b : β) (n : Nat) : List StackEvent :=
  (c.turns bus b n).flatMap (Turn.stackEvents bus)

theorem step_sp {s : Step} (h : (c.step bus b).result = .ok s)
    (htxs : ∀ i, decode (bus.read b c.registers.pc) = some i → i.mnemonic ≠ .txs) :
    (c.step bus b).registers.sp =
      (c.registers.advance (Opcode.ofCode (bus.read b c.registers.pc)).phases).sp := by
  rw [step_eq_unrestricted h]
  cases hd : decode (bus.read b c.registers.pc) with
  | none =>
    have hp : (Opcode.ofCode (bus.read b c.registers.pc)).phases = [.fetch] := by
      simp [Opcode.phases, Opcode.ofCode, hd]
    rw [(step_undocumented hd).1, hp]
    rfl
  | some i =>
    have hp : (Opcode.ofCode (bus.read b c.registers.pc)).phases =
        .fetch :: (i.mode.phases ++ i.mnemonic.action.phases i.mode) := by
      simp [Opcode.phases, Opcode.ofCode, hd, Instruction.phases]
    have ha : c.registers.advance (.fetch :: i.mode.phases) =
        (c.registers.past 1).past i.mode.operandBytes := Moment.advance_phases _ _
    rw [(step_documented hd).2, Mnemonic.finish_sp (htxs i hd), hp, ← List.cons_append,
      Registers.advance_append, ha]

theorem sparesStack_of_decode {i : Instruction}
    (hd : decode (bus.read b c.registers.pc) = some i) (htxs : i.mnemonic ≠ .txs)
    (hstore : .store ∉ i.phases) : Turn.SparesStack bus ⟨c.registers, b, c.step bus b⟩ := by
  intro j hj
  obtain rfl : i = j := Option.some.inj (hd.symm.trans hj)
  exact ⟨htxs, fun h => absurd h hstore⟩

theorem stackEvents_of_step {s : Step} (h : (c.step bus b).result = .ok s) :
    Turn.stackEvents bus ⟨c.registers, b, c.step bus b⟩ =
      (c.schedule bus b).filterMap Moment.stackEvent? := by
  rw [Turn.stackEvents, Turn.opcode, ← schedule_phases, accesses_of_step h, List.zip_map',
    List.filterMap_map]
  rfl

theorem step_replay {m : FlatMemory} {s : Step} {base : UInt8} {st : List UInt8}
    (h : (c.step FlatMemory.bus m).result = .ok s)
    (hspare : Turn.SparesStack FlatMemory.bus ⟨c.registers, m, c.step FlatMemory.bus m⟩)
    (hfits : StackEvent.Fits st.length
      (Turn.stackEvents FlatMemory.bus ⟨c.registers, m, c.step FlatMemory.bus m⟩))
    (hm : m.Holds base c.registers.sp st) :
    ∃ st', StackEvent.replay st
        (Turn.stackEvents FlatMemory.bus ⟨c.registers, m, c.step FlatMemory.bus m⟩) = some st' ∧
      (c.step FlatMemory.bus m).memory.Holds base (c.step FlatMemory.bus m).registers.sp st' := by
  have ha := accesses_of_step h
  have hserves := c.step_serves FlatMemory.bus m
  have hstore : ∀ x ∈ c.schedule FlatMemory.bus m, x.phase = .store →
      ¬ InStack x.access.addr := by
    intro x hx hp
    cases hd : decode (FlatMemory.bus.read m c.registers.pc) with
    | none =>
      rw [schedule, hd] at hx
      cases List.mem_singleton.mp hx
      cases hp
    | some i =>
      obtain ⟨hmem, haddr⟩ := store_address hd hx hp
      rw [haddr]
      exact (hspare i hd).2 hmem
  rw [stackEvents_of_step h] at hfits ⊢
  rw [step_memory, step_sp h fun i hd => (hspare i hd).1, ← schedule_phases, ha]
  rw [ha] at hserves
  exact hm.replay_moments (c.schedule_paced _ _) hserves hstore hfits

theorem turns_replay {m : FlatMemory} {n : Nat} {base : UInt8} {st : List UInt8}
    (hok : ∀ t ∈ c.turns FlatMemory.bus m n, t.Succeeds)
    (hspare : ∀ t ∈ c.turns FlatMemory.bus m n, t.SparesStack FlatMemory.bus)
    (hfits : StackEvent.Fits st.length (c.stackEvents FlatMemory.bus m n))
    (hm : m.Holds base c.registers.sp st) :
    ∃ st', StackEvent.replay st (c.stackEvents FlatMemory.bus m n) = some st' ∧
      (c.after FlatMemory.bus m n).2.Holds base (c.after FlatMemory.bus m n).1.registers.sp
        st' := by
  induction n generalizing c m st with
  | zero => exact ⟨st, rfl, hm⟩
  | succ n ih =>
    obtain ⟨⟨s, hs⟩, hoks⟩ := List.forall_mem_cons.mp hok
    obtain ⟨hspare, hspares⟩ := List.forall_mem_cons.mp hspare
    obtain ⟨hfit, hfits⟩ := StackEvent.Fits.append hfits
    obtain ⟨st₁, hr₁, hm₁⟩ := step_replay hs hspare hfit hm
    rw [← StackEvent.length_replay hr₁] at hfits
    obtain ⟨st₂, hr₂, hm₂⟩ := ih hoks hspares hfits hm₁
    refine ⟨st₂, ?_, hm₂⟩
    rw [stackEvents, turns, List.flatMap_cons, StackEvent.replay_append, hr₁]
    exact hr₂

/-- The page-one ring is a stack. While turns succeed and spare it, and the bytes on it since the
start are never fewer than none nor more than a page, the bytes it holds above the stack pointer are
those pushed and not yet pulled, and every pull gives the byte of its push. -/
theorem stack_lifo {c : Cpu} {m : FlatMemory} {n : Nat}
    (hok : ∀ t ∈ c.turns FlatMemory.bus m n, t.Succeeds)
    (hspare : ∀ t ∈ c.turns FlatMemory.bus m n, t.SparesStack FlatMemory.bus)
    (hfits : StackEvent.Fits 0 (c.stackEvents FlatMemory.bus m n)) :
    ∀ k ≤ n, ∃ st : List UInt8,
      let es := c.stackEvents FlatMemory.bus m k
      let s := c.after FlatMemory.bus m k
      StackEvent.replay [] es = some st ∧ (st.length : Int) = StackEvent.depth es ∧
        s.2.Holds c.registers.sp s.1.registers.sp st := by
  intro k hk
  have hp := c.turns_prefix FlatMemory.bus m hk
  obtain ⟨rest, hrest⟩ := id hp
  have hfit : StackEvent.Fits ([] : List UInt8).length (c.stackEvents FlatMemory.bus m k) := by
    rw [stackEvents, ← hrest, List.flatMap_append] at hfits
    exact hfits.append.1
  obtain ⟨st, hreplay, hholds⟩ := turns_replay
    (fun t ht => hok t (hp.subset ht)) (fun t ht => hspare t (hp.subset ht)) hfit
    (FlatMemory.Holds.nil m c.registers.sp)
  refine ⟨st, hreplay, ?_, hholds⟩
  simpa using StackEvent.length_replay hreplay

def pushPull : FlatMemory :=
  -- `PHA` and `PLA`
  (FlatMemory.zeroed.write 0 0x48).write 1 0x68

def pushing : Cpu := { registers := { Registers.powerOn with a := 0x2A, sp := 0 } }

theorem stack_lifo_wrapping :
    let bus := FlatMemory.bus
    (∀ t ∈ pushing.turns bus pushPull 2, t.Succeeds) ∧
      (∀ t ∈ pushing.turns bus pushPull 2, t.SparesStack bus) ∧
      pushing.stackEvents bus pushPull 2 = [.push 0x2A, .pull 0x2A] ∧
      ∀ k ≤ 2, ∃ st : List UInt8,
        let es := pushing.stackEvents bus pushPull k
        let s := pushing.after bus pushPull k
        StackEvent.replay [] es = some st ∧ (st.length : Int) = StackEvent.depth es ∧
          s.2.Holds pushing.registers.sp s.1.registers.sp st := by
  intro bus
  let pushed := pushPull.write (stackAddress 0) 0x2A
  let o := pushing.step bus pushPull
  let pulling : Cpu := { pushing with registers := o.registers }
  have hd : decode (pushPull.read pushing.registers.pc) = some ⟨.pha, .implicit⟩ := by
    have hr : pushPull.read pushing.registers.pc = 0x48 := by
      simp [pushPull, pushing, Registers.powerOn, FlatMemory.read_write]
    rw [hr, decode_eq_some_iff]
    decide
  obtain ⟨hok, hregs, hmem⟩ := step_flat hd
  have hregs : o.registers = { pushing.registers with pc := 1, sp := 0xFF } := hregs
  have hmem : o.memory = pushed := by
    rw [hmem, schedule_documented hd]
    rfl
  have hd' : decode (o.memory.read pulling.registers.pc) = some ⟨.pla, .implicit⟩ := by
    have hr : pushed.read 1 = 0x68 := by
      simp [pushed, pushPull, stackAddress, FlatMemory.read_write]
    rw [hmem, show pulling.registers.pc = 1 from congrArg Registers.pc hregs, hr,
      decode_eq_some_iff]
    decide
  have hok' := (step_flat hd').1
  have hturns : pushing.turns bus pushPull 2 =
      [⟨pushing.registers, pushPull, o⟩, ⟨o.registers, o.memory, pulling.step bus o.memory⟩] := rfl
  have hall : ∀ t ∈ pushing.turns bus pushPull 2, t.Succeeds := by
    rw [hturns]
    exact List.forall_mem_cons.mpr ⟨⟨_, hok⟩, List.forall_mem_singleton.mpr ⟨_, hok'⟩⟩
  have hspare : ∀ t ∈ pushing.turns bus pushPull 2, t.SparesStack bus := by
    rw [hturns]
    refine List.forall_mem_cons.mpr ⟨?_, List.forall_mem_singleton.mpr ?_⟩
    · exact sparesStack_of_decode (c := pushing) hd (by decide) (by decide)
    · exact sparesStack_of_decode (c := pulling) hd' (by decide) (by decide)
  have hevents : pushing.stackEvents bus pushPull 2 = [.push 0x2A, .pull 0x2A] := by
    have hpush : Turn.stackEvents bus ⟨pushing.registers, pushPull, o⟩ = [.push 0x2A] := by
      rw [stackEvents_of_step hok, schedule_documented hd]
      rfl
    have hpull : Turn.stackEvents bus ⟨pulling.registers, o.memory, pulling.step bus o.memory⟩ =
        [.pull (o.memory.read (stackAddress (pulling.registers.sp + 1)))] := by
      clear_value o
      rw [stackEvents_of_step hok', schedule_documented hd']
      rfl
    have hr : o.memory.read (stackAddress (pulling.registers.sp + 1)) = 0x2A := by
      rw [hmem, show pulling.registers.sp = 0xFF from congrArg Registers.sp hregs]
      simp [pushed, FlatMemory.read_write]
    rw [hr] at hpull
    rw [stackEvents, hturns, List.flatMap_cons, List.flatMap_singleton, hpush, hpull]
    rfl
  refine ⟨hall, hspare, hevents, stack_lifo hall hspare ?_⟩
  rw [hevents]
  simp [StackEvent.fits_cons, StackEvent.change, StackEvent.fits_nil]

end Cpu

end Cpu6502
