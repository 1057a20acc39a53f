import Cpu6502.Proofs.Calls
import Cpu6502.Proofs.Code
import Cpu6502.Proofs.Subroutine

/-!
Bytes that are laid on the stack to be taken up later. An instruction lays the byte that it pushes, and
balanced turns after it leave the byte on top of what was there before (`Cpu.Lays.holds`). A status that
is laid so comes back as it was but for the two bits that are no latches, whatever it has been in
between, and an `RTI` goes on with the word that was laid before the status (`Cpu.status_survives`).
-/

namespace Cpu6502

namespace Status

theorem put_of_held {p : Status} (h : p.Held) :
    (p.put .breakCommand false).put .unused true = p := by
  apply ext_has
  intro f
  cases f <;> simp [has_put, h.unused, h.breakCommand]

theorem ofStack_toStack (p : Status) :
    ofStack p.toStack = (p.put .breakCommand false).put .unused true := by
  apply ext_has
  intro f
  rw [has_ofStack, has_toStack]
  cases f <;> simp [has_put]

end Status

namespace Cpu

variable {c d : Cpu} {m e : FlatMemory} {k : Mnemonic} {i : Instruction} {room : Int}
  {source : Registers → UInt8} {base v lo hi : UInt8} {st : List UInt8}

theorem step_push (hd : decode (m.read c.registers.pc) = some ⟨k, .implicit⟩)
    (hk : k.action = .push source) :
    let o := c.step FlatMemory.bus m
    let r := c.registers.past 1
    o.result = .ok .proceed ∧ o.registers = { r with sp := r.sp - 1 } ∧
      o.memory = m.write (stackAddress r.sp) (source r) := by
  obtain ⟨hresult, hregisters, -⟩ := step_flat hd
  have hmemory := memory_of_tail hd
  simp only [hk] at hresult hregisters
  simp only [tail, hk] at hmemory
  exact ⟨hresult, hregisters, hmemory⟩

theorem step_plp (hm : m.Holds base c.registers.sp [v])
    (hd : decode (m.read c.registers.pc) = some ⟨.plp, .implicit⟩) :
    let o := c.step FlatMemory.bus m
    let r := c.registers
    o.result = .ok .proceed ∧
      o.registers = { r with status := .ofStack v, sp := base, pc := r.pc + 1 } := by
  have hsp : c.registers.sp + 1 = base := by simpa using hm.pull.sp_eq
  obtain ⟨hresult, hregisters, -⟩ := step_flat hd
  refine ⟨hresult, hregisters.trans ?_⟩
  rw [← hm.top, ← hsp]
  rfl

theorem step_rti (hm : m.Holds base c.registers.sp [v, lo, hi])
    (hd : decode (m.read c.registers.pc) = some ⟨.rti, .implicit⟩) :
    let o := c.step FlatMemory.bus m
    o.result = .ok .proceed ∧
      o.registers = { c.registers with status := .ofStack v, sp := base, pc := wordOf lo hi } := by
  have hsp : c.registers.sp + 1 + 1 + 1 = base := by simpa using hm.pull.pull.pull.sp_eq
  obtain ⟨hresult, hregisters, -⟩ := step_flat hd
  refine ⟨hresult, hregisters.trans ?_⟩
  rw [← hm.top, ← hm.pull.top, ← hm.pull.pull.top, ← hsp]
  rfl

theorem Balanced.single (hd : decode (m.read c.registers.pc) = some i) (htxs : i.mnemonic ≠ .txs)
    (hstill : .push ∉ i.phases ∧ .pull ∉ i.phases ∧ .store ∉ i.phases) (hroom : 0 ≤ room) :
    c.Balanced m 1 room := by
  obtain ⟨hpush, hpull, hstore⟩ := hstill
  have hok := (step_flat hd).1
  have hdepth : StackEvent.depth (c.stackEvents FlatMemory.bus m 1) = 0 := by
    have hone : StackEvent.depth _ = _ := step_depth hd hok
    rw [List.count_eq_zero.mpr hpush, List.count_eq_zero.mpr hpull] at hone
    simpa [stackEvents, turns] using hone
  constructor
  case succeeds => exact List.forall_mem_singleton.mpr ⟨_, hok⟩
  case spares => exact List.forall_mem_singleton.mpr (sparesStack_of_decode hd htxs hstore)
  case between =>
    intro j hj
    rcases Nat.le_one_iff_eq_zero_or_eq_one.mp hj with rfl | rfl
    · exact ⟨Int.le_refl 0, hroom⟩
    · rw [hdepth]
      exact ⟨Int.le_refl 0, hroom⟩
  case level => exact hdepth

/-- The next instruction is `k`, and balanced turns with `room` for bytes of their own lead from
behind it to `d` and `e`. -/
def Lays (c : Cpu) (m : FlatMemory) (k : Mnemonic) (room : Int) (d : Cpu) (e : FlatMemory) : Prop :=
  let o := c.step FlatMemory.bus m
  let behind : Cpu := { c with registers := o.registers }
  decode (m.read c.registers.pc) = some ⟨k, .implicit⟩ ∧
    ∃ n, behind.Balanced o.memory n room ∧ behind.after FlatMemory.bus o.memory n = (d, e)

theorem Lays.holds (h : c.Lays m k room d e) (hk : k.action = .push source)
    (hv : source (c.registers.past 1) = v) (hm : m.Holds base c.registers.sp st)
    (hroom : room + st.length < 256) : e.Holds base d.registers.sp (v :: st) := by
  obtain ⟨hd, n, hbalanced, hafter⟩ := h
  obtain ⟨-, hregisters, hmemory⟩ := step_push hd hk
  have hfree : 0 ≤ room := (hbalanced.between 0 n.zero_le).2
  have hpushed : (c.step FlatMemory.bus m).memory.Holds base
      (c.step FlatMemory.bus m).registers.sp (v :: st) := by
    rw [hregisters, hmemory, hv]
    exact hm.push (by omega) v
  have hheld := hbalanced.holds (by rw [List.length_cons]; omega) hpushed
  rwa [hafter] at hheld

/-- A status that is pushed and pulled again above balanced turns is what it was, with break cleared and
the unused bit set, and what it has become in between does not matter. With a word below it that was
pushed high byte first, a return from an interrupt goes on at that very word. The stack pointer is the
one from before the first push. -/
theorem status_survives (c : Cpu) (m : FlatMemory) :
    let r := c.registers
    (decode (m.read r.pc) = some ⟨.php, .implicit⟩ →
        let o := c.step FlatMemory.bus m
        o.result = .ok .proceed ∧ o.memory = m.write (stackAddress r.sp)
          ((r.status.put .breakCommand true).put .unused true).bits) ∧
      (∀ d e, c.Lays m .php 255 d e → decode (e.read d.registers.pc) = some ⟨.plp, .implicit⟩ →
        let o := d.step FlatMemory.bus e
        o.result = .ok .proceed ∧ o.registers = { d.registers with
          status := (r.status.put .breakCommand false).put .unused true
          sp := r.sp
          pc := d.registers.pc + 1 } ∧
        (r.status.Held → o.registers.status = r.status)) ∧
      ∀ c₁ m₁ c₂ m₂ d e, c.Lays m .pha 255 c₁ m₁ → c₁.Lays m₁ .pha 254 c₂ m₂ →
        c₂.Lays m₂ .php 253 d e → decode (e.read d.registers.pc) = some ⟨.rti, .implicit⟩ →
        let o := d.step FlatMemory.bus e
        let p := c₂.registers.status
        o.result = .ok .proceed ∧ o.registers = { d.registers with
          status := (p.put .breakCommand false).put .unused true
          sp := r.sp
          pc := wordOf c₁.registers.a r.a } ∧
        o.registers.pc.toNat = 256 * r.a.toNat + c₁.registers.a.toNat ∧
        (p.Held → o.registers.status = p) := by
  intro r
  have hnone : m.Holds r.sp r.sp [] := FlatMemory.Holds.nil m r.sp
  refine ⟨fun hphp => ?_, fun d e hlays hplp => ?_, ?_⟩
  · obtain ⟨hresult, -, hmemory⟩ := step_push hphp rfl
    exact ⟨hresult, hmemory⟩
  · have hheld : e.Holds r.sp d.registers.sp [r.status.toStack] := hlays.holds rfl rfl hnone (by decide)
    obtain ⟨hresult, hregisters⟩ := step_plp hheld hplp
    rw [Status.ofStack_toStack] at hregisters
    refine ⟨hresult, hregisters, fun hlatched => ?_⟩
    rw [hregisters]
    exact Status.put_of_held hlatched
  · intro c₁ m₁ c₂ m₂ d e hhi hlo hlays hrti o p
    have hone : m₁.Holds r.sp c₁.registers.sp [r.a] := hhi.holds rfl rfl hnone (by decide)
    have htwo : m₂.Holds r.sp c₂.registers.sp [c₁.registers.a, r.a] :=
      hlo.holds rfl rfl hone (by simp)
    have hthree : e.Holds r.sp d.registers.sp [p.toStack, c₁.registers.a, r.a] :=
      hlays.holds rfl rfl htwo (by simp)
    obtain ⟨hresult, hregisters⟩ := step_rti hthree hrti
    rw [Status.ofStack_toStack] at hregisters
    refine ⟨hresult, hregisters, ?_, fun hlatched => ?_⟩
    · rw [hregisters]
      exact toNat_wordOf _ _
    · rw [hregisters]
      exact Status.put_of_held hlatched

theorem lays_of_reaches (hd : decode (m.read c.registers.pc) = some ⟨k, .implicit⟩) {behind : Cpu}
    (hbehind : behind = { c with registers := (c.step FlatMemory.bus m).registers })
    {pushed : FlatMemory} (hpushed : pushed = (c.step FlatMemory.bus m).memory)
    (hi : decode (pushed.read behind.registers.pc) = some i) (htxs : i.mnemonic ≠ .txs)
    (hstill : .push ∉ i.phases ∧ .pull ∉ i.phases ∧ .store ∉ i.phases) (hroom : 0 ≤ room)
    (h : behind.Reaches FlatMemory.bus 1 pushed d e) : c.Lays m k room d e := by
  subst hbehind hpushed
  exact ⟨hd, 1, .single hi htxs hstill hroom, h.turns_proceed.2⟩

def interrupted (last : UInt8) : List UInt8 :=
  -- `PHA`, `LDA #$34`, `PHA`, `PHP`, `CLC` and one instruction more
  0x48 :: ((Line.lda 0x34).bytes ++ 0x48 :: 0x08 :: (Line.clc.bytes ++ [last]))

theorem contains_interrupted {last : UInt8} (h : m.Contains 0 (interrupted last)) (sp v : UInt8) :
    (m.write (stackAddress sp) v).Contains 0 (interrupted last) := by
  have hcode : ∀ j < 7, ¬ InStack (0 + UInt16.ofNat j) := by
    intro j hj
    rw [inStack_iff, UInt16.zero_add, UInt16.toNat_ofNat']
    omega
  exact h.write (fun j hj heq => hcode j hj (heq ▸ inStack_stackAddress sp)) v

theorem lays_interrupted {last : UInt8} (h : m.Contains 0 (interrupted last))
    (hpc : c.registers.pc = 4) (hroom : 0 ≤ room) :
    let r := c.registers
    c.Lays m .php room
      { c with registers := { r with sp := r.sp - 1, pc := 6, status := r.status.put .carry false } }
      (m.write (stackAddress r.sp) r.status.toStack) := by
  intro r
  let pushed := m.write (stackAddress r.sp) r.status.toStack
  let behind : Cpu := { c with registers := { r with sp := r.sp - 1, pc := 5 } }
  have hd : decode (m.read c.registers.pc) = some ⟨.php, .implicit⟩ := by
    rw [hpc]
    exact (congrArg decode (h 4 (show 4 < 7 by decide))).trans rfl
  obtain ⟨-, hregisters, hmemory⟩ := step_push hd rfl
  have hclc : pushed.Contains behind.registers.pc Line.clc.bytes := by
    have hcode : (pushed.Contains 0 ((0x48 :: ((Line.lda 0x34).bytes ++ [0x48, 0x08])) ++
        (Line.clc.bytes ++ [last]))) := contains_interrupted h r.sp _
    exact (FlatMemory.contains_append.mp (FlatMemory.contains_append.mp hcode).2).1
  have hbehind : behind = { c with registers := (c.step FlatMemory.bus m).registers } := by
    rw [hregisters, Registers.past_eq, hpc]
    rfl
  exact lays_of_reaches hd hbehind hmemory.symm (Line.decode_read hclc) (by decide) (by decide)
    hroom (Line.reaches_internal hclc rfl)

theorem status_survives_interrupted :
    let bus := FlatMemory.bus
    let held := Status.powerOn.put .carry true
    let saving : Cpu := ⟨⟨0, 0, 0, held, 0, 4⟩, .skip⟩
    let m := FlatMemory.zeroed.load 0 (interrupted 0x28)
    let c : Cpu := ⟨⟨0x12, 0, 0, .full, 1, 0⟩, .skip⟩
    let n := FlatMemory.zeroed.load 0 (interrupted 0x40)
    (decode (m.read 4) = some ⟨.php, .implicit⟩ ∧
        (saving.step bus m).memory = m.write 0x0100 0x35 ∧
          ∃ d e, saving.Lays m .php 255 d e ∧ d.registers.status.has .carry = false ∧
            decode (e.read d.registers.pc) = some ⟨.plp, .implicit⟩ ∧
              (d.step bus e).registers.status = held) ∧
      ∃ c₁ n₁ c₂ n₂ d e, c.Lays n .pha 255 c₁ n₁ ∧ c₁.Lays n₁ .pha 254 c₂ n₂ ∧
        c₂.Lays n₂ .php 253 d e ∧ decode (e.read d.registers.pc) = some ⟨.rti, .implicit⟩ ∧
          (d.step bus e).registers = ⟨0x34, 0, 0, ⟨0x6D⟩, 1, 0x1234⟩ := by
  intro bus held saving m c n
  have hm : m.Contains 0 (interrupted 0x28) := FlatMemory.contains_load (by decide)
  have hn : n.Contains 0 (interrupted 0x40) := FlatMemory.contains_load (by decide)
  obtain ⟨hpushed, hpulled, -⟩ := status_survives saving m
  obtain ⟨-, -, hreturned⟩ := status_survives c n
  constructor
  · let e := m.write (stackAddress 0) held.toStack
    have hphp : decode (m.read 4) = some ⟨.php, .implicit⟩ :=
      (congrArg decode (hm 4 (by decide))).trans rfl
    have hbyte : m.write (stackAddress 0) ((held.put .breakCommand true).put .unused true).bits =
        m.write 0x0100 0x35 := congr (congrArg m.write (by decide)) (by decide)
    have hlays : saving.Lays m .php 255 _ e := lays_interrupted hm rfl (by decide)
    have hplp : decode (e.read 6) = some ⟨.plp, .implicit⟩ :=
      (congrArg decode (contains_interrupted hm 0 held.toStack 6 (by decide))).trans rfl
    have hlatched : held.Held := ⟨by decide, by decide⟩
    exact ⟨hphp, (hpushed hphp).2.trans hbyte, _, e, hlays, by decide, hplp,
      (hpulled _ e hlays hplp).2.2 hlatched⟩
  · let n₁ := n.write (stackAddress 1) 0x12
    let n₂ := n₁.write (stackAddress 0) 0x34
    let behind : Cpu := ⟨⟨0x12, 0, 0, .full, 0, 1⟩, .skip⟩
    let c₁ : Cpu := { behind with registers := (behind.registers.past 2).loadA 0x34 }
    let c₂ : Cpu := { c₁ with registers := { c₁.registers with sp := 0xFF, pc := 4 } }
    let e := n₂.write (stackAddress 0xFF) c₂.registers.status.toStack
    have hn₁ : n₁.Contains 0 (interrupted 0x40) := contains_interrupted hn 1 0x12
    have hn₂ : n₂.Contains 0 (interrupted 0x40) := contains_interrupted hn₁ 0 0x34
    have hlda : n₁.Contains behind.registers.pc (Line.lda 0x34).bytes :=
      (FlatMemory.contains_append.mp (FlatMemory.contains_cons.mp hn₁).2).1
    have hhi : c.Lays n .pha 255 c₁ n₁ := by
      have hpha : decode (n.read c.registers.pc) = some ⟨.pha, .implicit⟩ :=
        (congrArg decode (hn 0 (by decide))).trans rfl
      obtain ⟨-, hregisters, hmemory⟩ := step_push hpha rfl
      have hbehind : behind = { c with registers := (c.step FlatMemory.bus n).registers } := by
        rw [hregisters]
        decide
      exact lays_of_reaches hpha hbehind hmemory.symm (Line.decode_read hlda) (by decide) (by decide)
        (by decide) (Line.reaches_immediate hlda rfl rfl rfl)
    have hlo : c₁.Lays n₁ .pha 254 c₂ n₂ := by
      have hpha : decode (n₁.read c₁.registers.pc) = some ⟨.pha, .implicit⟩ :=
        (congrArg decode (hn₁ 3 (by decide))).trans rfl
      obtain ⟨-, hregisters, hmemory⟩ := step_push hpha rfl
      exact ⟨hpha, 0, .refl _ _ (by decide),
        Prod.ext (congrArg (Cpu.mk · .skip) hregisters) hmemory⟩
    have hlays : c₂.Lays n₂ .php 253 _ e := lays_interrupted hn₂ rfl (by decide)
    have hrti : decode (e.read 6) = some ⟨.rti, .implicit⟩ :=
      (congrArg decode (contains_interrupted hn₂ 0xFF _ 6 (by decide))).trans rfl
    refine ⟨c₁, n₁, c₂, n₂, _, e, hhi, hlo, hlays, hrti, ?_⟩
    exact (hreturned _ _ _ _ _ _ hhi hlo hlays hrti).2.1.trans (by decide)

end Cpu

end Cpu6502
