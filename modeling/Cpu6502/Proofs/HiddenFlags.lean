import Mathlib.Data.List.Forall2
import Cpu6502.Proofs.Turn

/-!
Flags that no instruction looks at. Registers agree off some flags if they differ in nothing else.
Break and the unused bit are hidden from every instruction, and decimal and interrupt disable from
every one but `PHP`, which stores them: microcode that starts from registers that agree off hidden
flags asks for the same accesses and keeps them in agreement (`Action.perform_blind`), so runs that
differ in such flags alone stay alike (`Cpu.turns_agree`).
-/

namespace Cpu6502

variable {α β γ : Type} {hidden : List Flag}

def Status.AgreeOff (hidden : List Flag) (p q : Status) : Prop := ∀ f ∉ hidden, q.has f = p.has f

namespace Status.AgreeOff

variable {p q : Status}

theorem refl (p : Status) : p.AgreeOff hidden p := fun _ _ => rfl

theorem put (h : p.AgreeOff hidden q) (f : Flag) (on : Bool) :
    (p.put f on).AgreeOff hidden (q.put f on) := by
  intro g hg
  rw [has_put, has_put, h g hg]

theorem withResult (h : p.AgreeOff hidden q) (v : UInt8) :
    (p.withResult v).AgreeOff hidden (q.withResult v) := (h.put _ _).put _ _

theorem toStack_eq (h : p.AgreeOff hidden q) (hf : ∀ f ∈ hidden, f = .breakCommand ∨ f = .unused) :
    q.toStack = p.toStack := by
  have heq : Status.mk q.toStack = Status.mk p.toStack := by
    apply ext_has
    intro f
    rw [has_toStack, has_toStack]
    by_cases hm : f ∈ hidden
    · rcases hf f hm with rfl | rfl <;> rfl
    · rw [h f hm]
  exact congrArg Status.bits heq

end Status.AgreeOff

def Registers.AgreeOff (hidden : List Flag) (r s : Registers) : Prop :=
  ∃ q, s = { r with status := q } ∧ r.status.AgreeOff hidden q

namespace Registers.AgreeOff

variable {r s : Registers}

theorem refl (r : Registers) : r.AgreeOff hidden r := ⟨r.status, rfl, .refl _⟩

theorem addWithCarry (h : r.AgreeOff hidden s) (hc : .carry ∉ hidden) (v : UInt8) :
    (r.addWithCarry v).AgreeOff hidden (s.addWithCarry v) := by
  obtain ⟨q, rfl, hq⟩ := h
  simp only [Registers.addWithCarry, hq .carry hc]
  exact ⟨_, rfl, ((hq.put _ _).put _ _).withResult _⟩

theorem of_putFlag {f : Flag} (hf : f ∈ hidden) (r : Registers) (on : Bool) :
    r.AgreeOff hidden (r.putFlag f on) := by
  refine ⟨_, rfl, fun g hg => ?_⟩
  rw [Status.has_put, if_neg]
  rintro rfl
  exact hg hf

end Registers.AgreeOff

/-- The `P` column of a trace line is the only thing in it that may differ. -/
def Message.AgreeOff (hidden : List Flag) : Message → Message → Prop
  | .fetched o r, .fetched o' s => o = o' ∧ r.AgreeOff hidden s
  | m, m' => m = m'

theorem Message.AgreeOff.refl (m : Message) : m.AgreeOff hidden m := by
  cases m with
  | fetched o r => exact ⟨rfl, .refl r⟩
  | _ => rfl

structure Outcome.AgreeOff (hidden : List Flag) (o p : Outcome α β) : Prop where
  result : p.result = o.result
  registers : o.registers.AgreeOff hidden p.registers
  memory : p.memory = o.memory
  accesses : p.accesses = o.accesses
  messages : List.Forall₂ (Message.AgreeOff hidden) o.messages p.messages

namespace Outcome.AgreeOff

variable {o p : Outcome α β}

theorem after (h : o.AgreeOff hidden p) (a : Access) :
    (o.after a).AgreeOff hidden (p.after a) :=
  ⟨h.result, h.registers, h.memory, congrArg (a :: ·) h.accesses, h.messages⟩

theorem noting (h : o.AgreeOff hidden p) {ms ns : List Message}
    (hm : List.Forall₂ (Message.AgreeOff hidden) ms ns) :
    (o.noting ms).AgreeOff hidden (p.noting ns) :=
  ⟨h.result, h.registers, h.memory, h.accesses, List.rel_append hm h.messages⟩

end Outcome.AgreeOff

/-- The same accesses in the same order, with registers in agreement all along. -/
inductive Microcode.AgreeOff (hidden : List Flag) : Microcode α → Microcode α → Prop
  | done {r s : Registers} (a : α) (h : r.AgreeOff hidden s) : AgreeOff hidden (.done r a) (.done s a)
  | fail {r s : Registers} (e : Fault) (h : r.AgreeOff hidden s) :
      AgreeOff hidden (.fail r e) (.fail s e)
  | read {r s : Registers} {next next' : UInt8 → Microcode α} (addr : UInt16)
      (h : r.AgreeOff hidden s) (rest : ∀ v, AgreeOff hidden (next v) (next' v)) :
      AgreeOff hidden (.read r addr next) (.read s addr next')
  | write {r s : Registers} {next next' : Microcode α} (addr : UInt16) (v : UInt8)
      (h : r.AgreeOff hidden s) (rest : AgreeOff hidden next next') :
      AgreeOff hidden (.write r addr v next) (.write s addr v next')
  | note {next next' : Microcode α} (m : Message) (rest : AgreeOff hidden next next') :
      AgreeOff hidden (.note m next) (.note m next')

namespace Microcode.AgreeOff

variable {t u : Microcode α}

theorem bind (h : t.AgreeOff hidden u) {f g : α → Registers → Microcode γ}
    (hf : ∀ a r s, r.AgreeOff hidden s → (f a r).AgreeOff hidden (g a s)) :
    (t.bind f).AgreeOff hidden (u.bind g) := by
  induction h with
  | done a h => exact hf a _ _ h
  | fail e h => exact .fail e h
  | read addr h _ ih => exact .read addr h ih
  | write addr v h _ ih => exact .write addr v h ih
  | note m _ ih => exact .note m ih

theorem exec (h : t.AgreeOff hidden u) (bus : Bus β) (b : β) :
    (t.exec bus b).AgreeOff hidden (u.exec bus b) := by
  induction h generalizing b with
  | done a h => exact ⟨rfl, h, rfl, rfl, .nil⟩
  | fail e h => exact ⟨rfl, h, rfl, rfl, .nil⟩
  | read addr h _ ih =>
    simp only [Microcode.exec]
    split
    · exact (ih _ b).after _
    · exact ⟨rfl, h, rfl, rfl, .nil⟩
  | write addr v h _ ih =>
    simp only [Microcode.exec]
    split
    · exact ((ih _).after _).noting (List.forall₂_same.mpr fun m _ => .refl m)
    · exact ⟨rfl, h, rfl, rfl, .nil⟩
  | note m _ ih => exact (ih b).noting (.cons (.refl m) .nil)

end Microcode.AgreeOff

namespace Micro

def Blind (hidden : List Flag) (m : Micro α) : Prop :=
  ∀ r s, r.AgreeOff hidden s → (m r).AgreeOff hidden (m s)

theorem Blind.bind {m : Micro α} {f : α → Micro γ} (h : Blind hidden m)
    (hf : ∀ a, Blind hidden (f a)) : Blind hidden (m >>= f) :=
  fun r s hrs => (h r s hrs).bind fun a r s hrs => hf a r s hrs

theorem blind_pure (a : α) : Blind hidden (pure a : Micro α) := fun _ _ h => .done a h

theorem blind_raise (e : Fault) : Blind hidden (raise e : Micro α) := fun _ _ h => .fail e h

theorem blind_read (addr : UInt16) : Blind hidden (read addr) :=
  fun _ _ h => .read addr h fun v => .done v h

theorem blind_write (addr : UInt16) (v : UInt8) : Blind hidden (write addr v) :=
  fun _ _ h => .write addr v h (.done () h)

theorem blind_fetch : Blind hidden fetch := by
  rintro r _ ⟨q, rfl, hq⟩
  exact .read r.pc ⟨q, rfl, hq⟩ fun v => .done v ⟨q, rfl, hq⟩

theorem blind_fetchWord : Blind hidden fetchWord :=
  blind_fetch.bind fun _ => blind_fetch.bind fun _ => blind_pure _

theorem blind_push (v : UInt8) : Blind hidden (push v) := by
  rintro r _ ⟨q, rfl, hq⟩
  exact .write _ v ⟨q, rfl, hq⟩ (.done () ⟨q, rfl, hq⟩)

theorem blind_pull : Blind hidden pull := by
  rintro r _ ⟨q, rfl, hq⟩
  exact .read _ ⟨q, rfl, hq⟩ fun v => .done v ⟨q, rfl, hq⟩

theorem blind_pushWord (w : UInt16) : Blind hidden (pushWord w) :=
  (blind_push _).bind fun _ => blind_push _

theorem blind_pullWord : Blind hidden pullWord :=
  blind_pull.bind fun _ => blind_pull.bind fun _ => blind_pure _

theorem blind_readPointer (p : UInt16) : Blind hidden (readPointer p) :=
  (blind_read p).bind fun _ => (blind_read _).bind fun _ => blind_pure _

theorem blind_update {f : Registers → Registers}
    (hf : ∀ r s, r.AgreeOff hidden s → (f r).AgreeOff hidden (f s)) : Blind hidden (update f) :=
  fun r s h => .done () (hf r s h)

theorem blind_setPc (w : UInt16) : Blind hidden (update fun r => { r with pc := w }) := by
  refine blind_update ?_
  rintro r _ ⟨q, rfl, hq⟩
  exact ⟨q, rfl, hq⟩

theorem blind_note (m : Message) : Blind hidden (note m) := fun _ _ h => .note m (.done () h)

theorem blind_registers {f : Registers → Micro α} (hf : ∀ r s, r.AgreeOff hidden s → f s = f r)
    (h : ∀ r, Blind hidden (f r)) : Blind hidden (registers >>= f) := by
  intro r s hrs
  have he : (registers >>= f) s = f r s := congrFun (hf r s hrs) s
  rw [he]
  exact h r r s hrs

theorem blind_registers_of_status {f : Registers → Micro α}
    (hf : ∀ r q, f { r with status := q } = f r) (h : ∀ r, Blind hidden (f r)) :
    Blind hidden (registers >>= f) := by
  refine blind_registers ?_ h
  rintro r _ ⟨q, rfl, -⟩
  exact hf r q

theorem blind_effectiveAddress (mode : AddressingMode) : Blind hidden (effectiveAddress mode) := by
  cases mode with
  | immediate =>
    exact blind_registers_of_status (fun _ _ => rfl) fun _ =>
      blind_fetch.bind fun _ => blind_pure _
  | zeroPage => exact blind_fetch.bind fun _ => blind_pure _
  | zeroPageX | zeroPageY | relative =>
    exact blind_fetch.bind fun _ => blind_registers_of_status (fun _ _ => rfl) fun _ =>
      blind_pure _
  | absolute => exact blind_fetchWord
  | absoluteX | absoluteY =>
    exact blind_fetchWord.bind fun _ => blind_registers_of_status (fun _ _ => rfl) fun _ =>
      blind_pure _
  | indirect => exact blind_fetchWord.bind blind_readPointer
  | indirectX =>
    exact blind_fetch.bind fun _ => blind_registers_of_status (fun _ _ => rfl) fun _ =>
      blind_readPointer _
  | indirectY =>
    exact blind_fetch.bind fun _ => (blind_readPointer _).bind fun _ =>
      blind_registers_of_status (fun _ _ => rfl) fun _ => blind_pure _
  | implicit | accumulator => exact blind_raise _

theorem blind_operand (mode : AddressingMode) : Blind hidden (operand mode) := by
  have haddr : Blind hidden (effectiveAddress mode >>= read) :=
    (blind_effectiveAddress mode).bind blind_read
  cases mode with
  | immediate => exact blind_fetch
  | accumulator => exact blind_registers_of_status (fun _ _ => rfl) fun _ => blind_pure _
  | _ => exact haddr

end Micro

namespace Action

def Ignores (hidden : List Flag) : Action → Prop
  | .consume effect | .pull effect =>
      ∀ r s v, r.AgreeOff hidden s → (effect r v).AgreeOff hidden (effect s v)
  | .internal effect => ∀ r s, r.AgreeOff hidden s → (effect r).AgreeOff hidden (effect s)
  | .store source | .push source => ∀ r s, r.AgreeOff hidden s → source s = source r
  | .modify change => ∀ p q v, p.AgreeOff hidden q →
      change.byte q v = change.byte p v ∧ (change.flags p v).AgreeOff hidden (change.flags q v)
  | .branch flag _ => flag ∉ hidden
  | .jump | .call | .returnFromCall | .returnFromInterrupt | .halt => True

open Micro

theorem perform_modify_blind {change : Modification} (h : (modify change).Ignores hidden)
    (mode : AddressingMode) : Blind hidden ((modify change).perform mode) := by
  have hacc : Blind hidden ((modify change).perform .accumulator) := by
    refine (blind_update ?_).bind fun _ => blind_pure _
    rintro r _ ⟨q, rfl, hq⟩
    obtain ⟨hb, hf⟩ := h r.status q r.a hq
    rw [hb]
    exact ⟨_, rfl, hf.withResult _⟩
  have hmem : Blind hidden (effectiveAddress mode >>= fun addr => Micro.read addr >>= fun old =>
      registers >>= fun r => do
        update fun s => { s with status := change.flags r.status old }
        Micro.write addr (change.byte r.status old)
        update fun s => { s with status := s.status.withResult (change.byte r.status old) }
        return Step.proceed) := by
    refine (blind_effectiveAddress mode).bind fun addr => (blind_read addr).bind fun old => ?_
    rintro r _ ⟨q, rfl, hq⟩
    obtain ⟨hb, hf⟩ := h r.status q old hq
    change Microcode.AgreeOff hidden
      (.write { r with status := change.flags r.status old } addr (change.byte r.status old)
        (.done { r with status :=
          (change.flags r.status old).withResult (change.byte r.status old) } Step.proceed))
      (.write { r with status := change.flags q old } addr (change.byte q old)
        (.done { r with status :=
          (change.flags q old).withResult (change.byte q old) } Step.proceed))
    rw [hb]
    exact .write addr _ ⟨_, rfl, hf⟩ (.done _ ⟨_, rfl, hf.withResult _⟩)
  cases mode with
  | accumulator => exact hacc
  | _ => exact hmem

theorem perform_blind {act : Action} (h : act.Ignores hidden) (mode : AddressingMode) :
    Blind hidden (act.perform mode) := by
  cases act with
  | consume effect =>
    exact (blind_operand mode).bind fun v =>
      (blind_update fun r s hrs => h r s v hrs).bind fun _ => blind_pure _
  | store source =>
    refine (blind_effectiveAddress mode).bind fun addr => blind_registers ?_ fun _ =>
      (blind_write _ _).bind fun _ => blind_pure _
    intro r s hrs
    rw [h r s hrs]
  | modify change => exact perform_modify_blind h mode
  | internal effect => exact (blind_update h).bind fun _ => blind_pure _
  | push source =>
    refine blind_registers ?_ fun _ => (blind_push _).bind fun _ => blind_pure _
    intro r s hrs
    rw [h r s hrs]
  | pull effect =>
    exact blind_pull.bind fun v =>
      (blind_update fun r s hrs => h r s v hrs).bind fun _ => blind_pure _
  | branch flag wanted =>
    refine (blind_effectiveAddress mode).bind fun target =>
      (blind_update ?_).bind fun _ => blind_pure _
    rintro r _ ⟨q, rfl, hq⟩
    simp only [hq flag h]
    split
    · exact ⟨q, rfl, hq⟩
    · exact ⟨q, rfl, hq⟩
  | jump =>
    exact (blind_effectiveAddress mode).bind fun _ =>
      (blind_setPc _).bind fun _ => blind_pure _
  | call =>
    exact (blind_effectiveAddress mode).bind fun _ =>
      blind_registers_of_status (fun _ _ => rfl) fun _ => (blind_pushWord _).bind fun _ =>
        (blind_setPc _).bind fun _ => blind_pure _
  | returnFromCall =>
    exact blind_pullWord.bind fun _ => (blind_setPc _).bind fun _ => blind_pure _
  | returnFromInterrupt =>
    refine blind_pull.bind fun v => (blind_update ?_).bind fun _ =>
      blind_pullWord.bind fun _ => (blind_setPc _).bind fun _ => blind_pure _
    rintro r _ ⟨q, rfl, -⟩
    exact ⟨_, rfl, .refl _⟩
  | halt =>
    exact blind_registers_of_status (fun _ _ => rfl) fun _ =>
      (blind_note _).bind fun _ => blind_pure _

end Action

def Flag.idle : List Flag := [.breakCommand, .unused, .decimal, .interruptDisable]

theorem Mnemonic.action_ignores {m : Mnemonic} (hidden : List Flag) (hidle : hidden ⊆ Flag.idle)
    (hphp : m = .php → hidden ⊆ [.breakCommand, .unused]) : m.action.Ignores hidden := by
  have hlive : ∀ f ∉ Flag.idle, f ∉ hidden := fun f hf hm => hf (hidle hm)
  have hc : .carry ∉ hidden := hlive .carry (by decide)
  cases m with
  | lda | and | ora | eor | pla | ldx | ldy =>
    rintro r _ v ⟨q, rfl, hq⟩
    exact ⟨_, rfl, hq.withResult _⟩
  | adc => exact fun _ _ v h => h.addWithCarry hc v
  | sbc => exact fun _ _ v h => h.addWithCarry hc (~~~v)
  | cmp | cpx | cpy =>
    rintro r _ v ⟨q, rfl, hq⟩
    exact ⟨_, rfl, (hq.put _ _).withResult _⟩
  | bit =>
    rintro r _ v ⟨q, rfl, hq⟩
    exact ⟨_, rfl, ((hq.put _ _).put _ _).put _ _⟩
  | plp =>
    rintro r _ v ⟨q, rfl, -⟩
    exact ⟨_, rfl, .refl _⟩
  | tax | tay | txa | tya | tsx | inx | iny | dex | dey =>
    rintro r _ ⟨q, rfl, hq⟩
    exact ⟨_, rfl, hq.withResult _⟩
  | clc | sec | cli | sei | cld | sed | clv =>
    rintro r _ ⟨q, rfl, hq⟩
    exact ⟨_, rfl, hq.put _ _⟩
  | txs | nop =>
    rintro r _ ⟨q, rfl, hq⟩
    exact ⟨q, rfl, hq⟩
  | sta | stx | sty | pha =>
    rintro r _ ⟨q, rfl, -⟩
    rfl
  | php =>
    rintro r _ ⟨q, rfl, hq⟩
    exact hq.toStack_eq fun f hf => by simpa using hphp rfl hf
  | inc | dec => exact fun _ _ _ h => ⟨rfl, h⟩
  | asl | lsr => exact fun _ _ _ h => ⟨rfl, h.put _ _⟩
  | rol =>
    refine fun p q v h => ⟨?_, h.put _ _⟩
    simp only [Modification.rotateLeft, h .carry hc]
  | ror =>
    refine fun p q v h => ⟨?_, h.put _ _⟩
    simp only [Modification.rotateRight, h .carry hc]
  | bcc | bcs => exact hc
  | bne | beq => exact hlive .zero (by decide)
  | bpl | bmi => exact hlive .negative (by decide)
  | bvc | bvs => exact hlive .overflow (by decide)
  | jmp | jsr | rts | rti | brk => trivial

namespace Turn

def Executes (bus : Bus β) (m : Mnemonic) (t : Turn β) : Prop :=
  bus.mapped t.memory t.before.pc = true ∧
    ∃ mode, (t.opcode bus).instruction = some ⟨m, mode⟩

structure AgreeOff (hidden : List Flag) (t u : Turn β) : Prop where
  before : t.before.AgreeOff hidden u.before
  memory : u.memory = t.memory
  outcome : t.outcome.AgreeOff hidden u.outcome

end Turn

namespace Cpu

variable {policy : UnknownOpcodes} {bus : Bus β} {b : β} {r s : Registers}

theorem execution_agrees (policy : UnknownOpcodes) {code : UInt8} (h : r.AgreeOff hidden s)
    (hd : ∀ i, decode code = some i → i.mnemonic.action.Ignores hidden) :
    (Micro.execution policy r code).AgreeOff hidden (Micro.execution policy s code) := by
  obtain ⟨q, rfl, hq⟩ := h
  unfold Micro.execution
  cases hc : decode code with
  | some i => exact Action.perform_blind (hd i hc) i.mode _ _ ⟨q, rfl, hq⟩
  | none =>
    cases policy with
    | skip => exact .note _ (.done _ ⟨q, rfl, hq⟩)
    | error => exact .fail _ ⟨q, rfl, hq⟩

theorem step_agrees (h : r.AgreeOff hidden s) (hidle : hidden ⊆ Flag.idle)
    (hphp : Turn.Executes bus .php ⟨r, b, step ⟨r, policy⟩ bus b⟩ →
      hidden ⊆ [.breakCommand, .unused]) :
    (step ⟨r, policy⟩ bus b).AgreeOff hidden (step ⟨s, policy⟩ bus b) := by
  obtain ⟨q, rfl, hq⟩ := id h
  cases hm : bus.mapped b r.pc with
  | false =>
    rw [step_unmapped hm, step_unmapped hm]
    exact ⟨rfl, h, rfl, rfl, .nil⟩
  | true =>
    let code := bus.read b r.pc
    have hignores : ∀ i, decode code = some i → i.mnemonic.action.Ignores hidden := by
      rintro ⟨m, mode⟩ hd
      refine Mnemonic.action_ignores hidden hidle ?_
      rintro rfl
      exact hphp ⟨hm, mode, hd⟩
    have hexec := (execution_agrees policy h hignores).exec bus b
    have htrace : Message.AgreeOff hidden (.fetched (.ofCode code) r)
        (.fetched (.ofCode code) { r with status := q }) := ⟨rfl, h⟩
    rw [step, step, Micro.instruction_eq, Micro.instruction_eq, Microcode.exec, Microcode.exec,
      if_pos hm, if_pos hm]
    exact (hexec.noting (.cons htrace .nil)).after _

theorem turns_agree {n : Nat} (h : r.AgreeOff hidden s) (hidle : hidden ⊆ Flag.idle)
    (hphp : ∀ t ∈ turns ⟨r, policy⟩ bus b n, t.Executes bus .php →
      hidden ⊆ [.breakCommand, .unused]) :
    List.Forall₂ (Turn.AgreeOff hidden) (turns ⟨r, policy⟩ bus b n)
      (turns ⟨s, policy⟩ bus b n) := by
  induction n generalizing r s b with
  | zero => exact .nil
  | succ n ih =>
    -- the first steps leave registers in agreement again, and the very same memory
    obtain ⟨hfirst, hrest⟩ := List.forall_mem_cons.mp hphp
    have ho := step_agrees h hidle hfirst
    refine .cons ⟨h, rfl, ho⟩ ?_
    simp only [ho.memory]
    exact ih ho.registers hrest

/-- Break and the unused bit change nothing but themselves, whatever is executed; nor do decimal and
interrupt disable as long as `PHP` is not. -/
theorem idle_flags_unseen (policy : UnknownOpcodes) (bus : Bus β) (b : β) (r s : Registers)
    (n : Nat) :
    (r.AgreeOff [.breakCommand, .unused] s →
        List.Forall₂ (Turn.AgreeOff [.breakCommand, .unused]) (turns ⟨r, policy⟩ bus b n)
          (turns ⟨s, policy⟩ bus b n)) ∧
      (r.AgreeOff Flag.idle s → (∀ t ∈ turns ⟨r, policy⟩ bus b n, ¬ t.Executes bus .php) →
        List.Forall₂ (Turn.AgreeOff Flag.idle) (turns ⟨r, policy⟩ bus b n)
          (turns ⟨s, policy⟩ bus b n)) ∧
      ∀ i, decode (bus.read b r.pc) = some i → i.mnemonic = .adc ∨ i.mnemonic = .sbc →
        ∀ on, (step ⟨r, policy⟩ bus b).AgreeOff [.decimal]
          (step ⟨r.putFlag .decimal on, policy⟩ bus b) := by
  refine ⟨fun h => ?_, fun h hphp => ?_, fun i hd hi on => ?_⟩
  · exact turns_agree h (by decide) fun _ _ _ => List.Subset.refl _
  · exact turns_agree h (List.Subset.refl _) fun t ht hp => absurd hp (hphp t ht)
  · refine step_agrees (.of_putFlag List.mem_cons_self r on) (by decide) ?_
    rintro ⟨-, mode, hp⟩
    have hm : i = ⟨.php, mode⟩ := Option.some.inj (hd.symm.trans hp)
    rw [hm] at hi
    rcases hi with hi | hi <;> cases hi

def sumsOnly : Bus Unit where
  -- `ADC #$69` wherever the program counter goes
  read _ _ := 0x69
  write _ _ _ := ()

theorem idle_flags_unseen_by_sums :
    let r := Registers.powerOn
    let s := r.putFlag .breakCommand true
    (r.AgreeOff [.breakCommand, .unused] s ∧
        List.Forall₂ (Turn.AgreeOff [.breakCommand, .unused]) (turns ⟨r, .skip⟩ sumsOnly () 3)
          (turns ⟨s, .skip⟩ sumsOnly () 3)) ∧
      (r.AgreeOff Flag.idle s ∧
        (∀ t ∈ turns ⟨r, .skip⟩ sumsOnly () 3, ¬ t.Executes sumsOnly .php) ∧
          List.Forall₂ (Turn.AgreeOff Flag.idle) (turns ⟨r, .skip⟩ sumsOnly () 3)
            (turns ⟨s, .skip⟩ sumsOnly () 3)) ∧
      (step ⟨r, .skip⟩ sumsOnly ()).AgreeOff [.decimal]
        (step ⟨r.putFlag .decimal true, .skip⟩ sumsOnly ()) := by
  intro r s
  have hd : decode 0x69 = some ⟨.adc, .immediate⟩ := rfl
  have hlow : r.AgreeOff [.breakCommand, .unused] s := .of_putFlag (by decide) r true
  have hall : r.AgreeOff Flag.idle s := .of_putFlag (by decide) r true
  have hphp : ∀ t ∈ turns ⟨r, .skip⟩ sumsOnly () 3, ¬ t.Executes sumsOnly .php := by
    rintro t - ⟨-, mode, hp⟩
    cases hd.symm.trans hp
  obtain ⟨h₁, h₂, h₃⟩ := idle_flags_unseen .skip sumsOnly () r s 3
  exact ⟨⟨hlow, h₁ hlow⟩, ⟨hall, hphp, h₂ hall hphp⟩, h₃ _ hd (.inl rfl) true⟩

end Cpu

end Cpu6502
