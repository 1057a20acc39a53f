import Cpu6502.Cpu

/-!
What permissions do to a run. On a bus that refuses nothing a tree of microcode has one course of
accesses. On the bus itself it follows that course and stops in front of the first access that is
refused (`Microcode.exec_cut`), so nothing that the bus does not permit ever reaches it
(`Cpu.run_serves`).
-/

namespace Cpu6502

variable {α β γ : Type}

def Access.addr : Access → UInt16
  | .read addr _ => addr
  | .write addr _ => addr

def Access.isWrite : Access → Bool
  | .read _ _ => false
  | .write _ _ => true

namespace Bus

def allows (bus : Bus β) (b : β) : Access → Bool
  | .read addr _ => bus.mapped b addr
  | .write addr _ => bus.writable b addr

def served (bus : Bus β) (b : β) : Access → β
  | .read _ _ => b
  | .write addr v => bus.write b addr v

def answers (bus : Bus β) (b : β) : Access → Prop
  | .read addr v => v = bus.read b addr
  | .write _ _ => True

def Serves (bus : Bus β) : β → List Access → Prop
  | _, [] => True
  | b, a :: as => bus.allows b a = true ∧ bus.answers b a ∧ Serves bus (bus.served b a) as

theorem serves_append {bus : Bus β} {b : β} {as cs : List Access} :
    bus.Serves b (as ++ cs) ↔ bus.Serves b as ∧ bus.Serves (as.foldl bus.served b) cs := by
  induction as generalizing b with
  | nil => simp [Serves]
  | cons a as ih => simp [Serves, ih, and_assoc]

theorem foldl_served_reads (bus : Bus β) (b : β) {as : List Access}
    (h : ∀ a ∈ as, a.isWrite = false) : as.foldl bus.served b = b := by
  induction as with
  | nil => rfl
  | cons a as ih =>
    have ha := h a List.mem_cons_self
    have hs : bus.served b a = b := by
      cases a with
      | read addr v => rfl
      | write addr v => cases ha
    rw [List.foldl_cons, hs]
    exact ih fun x hx => h x (List.mem_cons_of_mem _ hx)

theorem Serves.allows {bus : Bus β} {b : β} {as : List Access} (h : bus.Serves b as)
    (hreads : ∀ a ∈ as, a.isWrite = false) : ∀ a ∈ as, bus.allows b a = true := by
  induction as with
  | nil => exact fun a ha => nomatch ha
  | cons a as ih =>
    rw [List.forall_mem_cons] at hreads ⊢
    obtain ⟨hallows, -, hrest⟩ := h
    have hserved : bus.served b a = b := by
      cases a with
      | read addr v => rfl
      | write addr v => cases hreads.1
    rw [hserved] at hrest
    exact ⟨hallows, ih hrest hreads.2⟩

end Bus

namespace Microcode

/-- The accesses on a bus that refuses nothing, each with the registers that stand if it is the
one to be refused. -/
def course (bus : Bus β) : Microcode α → β → List (Registers × Access)
  | .done _ _, _ => []
  | .fail _ _, _ => []
  | .read r addr next, b =>
      let v := bus.read b addr
      (r, .read addr v) :: (next v).course bus b
  | .write r addr v next, b => (r, .write addr v) :: next.course bus (bus.write b addr v)
  | .note _ next, b => next.course bus b

theorem course_bind (bus : Bus β) (t : Microcode α) (f : α → Registers → Microcode γ) (b : β) :
    (t.bind f).course bus b =
      t.course bus b ++
        match (t.exec bus.unrestricted b).result with
        | .ok a =>
            (f a (t.exec bus.unrestricted b).registers).course bus
              (t.exec bus.unrestricted b).memory
        | .error _ => [] := by
  induction t generalizing b with
  | done r a => simp [bind, course, exec]
  | fail r e => simp [bind, course, exec]
  | read r addr next ih => simp [bind, course, exec, Bus.unrestricted, Outcome.after, ih]
  | write r addr v next ih =>
    simp [bind, course, exec, Bus.unrestricted, Outcome.after, Outcome.noting, ih]
  | note m next ih => simp [bind, course, exec, Outcome.noting, ih]

theorem exec_unrestricted_accesses (bus : Bus β) (t : Microcode α) (b : β) :
    (t.exec bus.unrestricted b).accesses = (t.course bus b).map (·.2) := by
  induction t generalizing b with
  | done r a => rfl
  | fail r e => rfl
  | read r addr next ih =>
    have h := ih (bus.read b addr) b
    simpa [exec, course, Bus.unrestricted, Outcome.after] using h
  | write r addr v next ih =>
    have h := ih (bus.write b addr v)
    simpa [exec, course, Bus.unrestricted, Outcome.after, Outcome.noting] using h
  | note m next ih =>
    have h := ih b
    simpa [exec, course, Outcome.noting] using h

theorem exec_memory (bus : Bus β) (t : Microcode α) (b : β) :
    (t.exec bus b).memory = (t.exec bus b).accesses.foldl bus.served b := by
  induction t generalizing b with
  | done r a => rfl
  | fail r e => rfl
  | read r addr next ih =>
    simp only [exec]
    split
    · simpa [Outcome.after, Bus.served] using ih _ b
    · rfl
  | write r addr v next ih =>
    simp only [exec]
    split
    · simpa [Outcome.after, Outcome.noting, Bus.served] using ih _
    · rfl
  | note m next ih => simpa [exec, Outcome.noting] using ih b

theorem exec_serves (bus : Bus β) (t : Microcode α) (b : β) :
    bus.Serves b (t.exec bus b).accesses := by
  induction t generalizing b with
  | done r a => trivial
  | fail r e => trivial
  | read r addr next ih =>
    simp only [exec]
    split
    · rename_i hm
      exact ⟨hm, rfl, ih _ b⟩
    · trivial
  | write r addr v next ih =>
    simp only [exec]
    split
    · rename_i hw
      exact ⟨hw, trivial, ih _⟩
    · trivial
  | note m next ih => exact ih b

theorem exec_cut (bus : Bus β) (t : Microcode α) (b : β) :
    t.exec bus b = t.exec bus.unrestricted b ∨
      ∃ past r a rest, t.course bus b = past ++ (r, a) :: rest ∧
        (t.exec bus b).accesses = past.map (·.2) ∧ (t.exec bus b).registers = r ∧
        (t.exec bus b).result = .error (.outOfBounds a.addr) ∧
        bus.allows (t.exec bus b).memory a = false := by
  induction t generalizing b with
  | done r a => exact .inl rfl
  | fail r e => exact .inl rfl
  | read r addr next ih =>
    by_cases hm : bus.mapped b addr
    · simp only [exec, course, Bus.unrestricted, if_pos hm, if_true]
      rcases ih (bus.read b addr) b with h | ⟨past, s, a, rest, hc, ha, hr, he, hd⟩
      · exact .inl (congrArg (Outcome.after _) h)
      · exact .inr ⟨_ :: past, s, a, rest, by rw [hc]; rfl, by simp [Outcome.after, ha], hr, he, hd⟩
    · simp only [exec, if_neg hm]
      exact .inr ⟨[], r, .read addr (bus.read b addr), _, rfl, rfl, rfl, rfl, by
        simpa [Bus.allows] using hm⟩
  | write r addr v next ih =>
    by_cases hw : bus.writable b addr
    · simp only [exec, course, Bus.unrestricted, if_pos hw, if_true]
      rcases ih (bus.write b addr v) with h | ⟨past, s, a, rest, hc, ha, hr, he, hd⟩
      · exact .inl (congrArg (fun o => (Outcome.after _ o).noting _) h)
      · exact .inr ⟨_ :: past, s, a, rest, by rw [hc]; rfl, by
          simp [Outcome.after, Outcome.noting, ha], hr, he, hd⟩
    · simp only [exec, if_neg hw]
      exact .inr ⟨[], r, .write addr v, _, rfl, rfl, rfl, rfl, by simpa [Bus.allows] using hw⟩
  | note m next ih =>
    simp only [exec, course]
    rcases ih b with h | ⟨past, s, a, rest, hc, ha, hr, he, hd⟩
    · exact .inl (congrArg (Outcome.noting _) h)
    · exact .inr ⟨past, s, a, rest, hc, ha, hr, he, hd⟩

end Microcode

namespace Cpu

theorem step_serves (c : Cpu) (bus : Bus β) (b : β) : bus.Serves b (c.step bus b).accesses :=
  Microcode.exec_serves _ _ _

theorem step_memory (c : Cpu) (bus : Bus β) (b : β) :
    (c.step bus b).memory = (c.step bus b).accesses.foldl bus.served b :=
  Microcode.exec_memory _ _ _

theorem walk_serves (c : Cpu) (bus : Bus β) (b : β) (n : Nat) :
    bus.Serves b ((c.walk bus b n).flatMap (·.accesses)) := by
  induction n generalizing c b with
  | zero => trivial
  | succ n ih =>
    have hs := c.step_serves bus b
    rw [walk]
    rcases hr : (c.step bus b).result with f | (_ | _)
    · simpa using hs
    · rw [List.flatMap_cons, Bus.serves_append, ← step_memory]
      exact ⟨hs, ih _ _⟩
    · simpa using hs

theorem run_serves (c : Cpu) (bus : Bus β) (b : β) (n : Nat) :
    bus.Serves b (c.run bus b n).accesses.toList := by
  rw [run_eq_ofOutcomes]
  exact c.walk_serves bus b n

theorem step_cut (c : Cpu) (bus : Bus β) (b : β) :
    c.step bus b = c.step bus.unrestricted b ∨
      ∃ a rest, (c.step bus.unrestricted b).accesses = (c.step bus b).accesses ++ a :: rest ∧
        (c.step bus b).result = .error (.outOfBounds a.addr) ∧
        bus.allows (c.step bus b).memory a = false := by
  have hfree : (c.step bus.unrestricted b).accesses = _ :=
    Microcode.exec_unrestricted_accesses bus (Micro.instruction c.policy c.registers) b
  rcases Microcode.exec_cut bus (Micro.instruction c.policy c.registers) b with
    h | ⟨past, r, a, rest, hc, ha, -, he, hd⟩
  · exact .inl h
  · refine .inr ⟨a, rest.map (·.2), ?_, he, hd⟩
    rw [hfree, hc, List.map_append, ← ha]
    rfl

/-- Permissions only cut a step short: with all its accesses made it is the step on the bus that
refuses nothing, and otherwise it names the next access of that step, which is refused. -/
theorem step_truncates (c : Cpu) (bus : Bus β) (b : β) :
    let o := c.step bus b
    let free := c.step bus.unrestricted b
    o.accesses <+: free.accesses ∧
      (o.accesses = free.accesses → o = free) ∧
      (o.accesses ≠ free.accesses → ∃ a rest, free.accesses = o.accesses ++ a :: rest ∧
        o.result = .error (.outOfBounds a.addr) ∧ bus.allows o.memory a = false) ∧
      o.memory = o.accesses.foldl bus.served b ∧
      ∀ n, bus.Serves b (c.run bus b n).accesses.toList := by
  intro o free
  have hcut : o = free ∨ ∃ a rest, free.accesses = o.accesses ++ a :: rest ∧
      o.result = .error (.outOfBounds a.addr) ∧ bus.allows o.memory a = false := c.step_cut bus b
  refine ⟨?_, ?_, ?_, c.step_memory bus b, c.run_serves bus b⟩
  · rcases hcut with h | ⟨a, rest, hf, -, -⟩
    · exact h ▸ List.prefix_rfl
    · exact hf ▸ List.prefix_append _ _
  · intro hall
    rcases hcut with h | ⟨a, rest, hf, -, -⟩
    · exact h
    · rw [hall] at hf
      have hlen := congrArg List.length hf
      simp at hlen
  · intro hall
    rcases hcut with h | h
    · exact absurd (congrArg Outcome.accesses h) hall
    · exact h

end Cpu

end Cpu6502
