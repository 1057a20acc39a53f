import Cpu6502.Cpu

/-!
Steps that proceed. `Reaches bus n c b d e` says that `n` of them lead from the processor `c` and
memory `b` to `d` and `e`. Such steps can be joined (`Reaches.trans`), and a run goes through them
(`Reaches.run_stop`) until one does not proceed, which it ends with (`run_cases`). A run without a limit
ends in a stop if some limited one does: at its first step if that does not proceed (`ends_of_stop`), and
otherwise with what is left (`ends_of_proceed`).
-/

namespace Cpu6502.Cpu

variable {β : Type} {bus : Bus β}

inductive Reaches (bus : Bus β) : Nat → Cpu → β → Cpu → β → Prop
  | refl (c : Cpu) (b : β) : Reaches bus 0 c b c b
  | step {n : Nat} {c d : Cpu} {b e : β} (h : (c.step bus b).result = .ok .proceed)
      (rest : Reaches bus n { c with registers := (c.step bus b).registers }
        (c.step bus b).memory d e) : Reaches bus (n + 1) c b d e

namespace Reaches

variable {n k : Nat} {c d f : Cpu} {b e g : β}

theorem trans (h : Reaches bus n c b d e) (h' : Reaches bus k d e f g) :
    Reaches bus (n + k) c b f g := by
  induction h with
  | refl c b => simpa using h'
  | step hs _ ih =>
    rw [Nat.add_right_comm]
    exact .step hs (ih h')

theorem single {r : Registers} (hs : (c.step bus b).result = .ok .proceed)
    (hr : (c.step bus b).registers = r) (hm : (c.step bus b).memory = e) :
    Reaches bus 1 c b { c with registers := r } e := by
  subst hr hm
  exact .step hs (.refl _ _)

theorem policy_eq (h : Reaches bus n c b d e) : d.policy = c.policy := by
  induction h with
  | refl c b => rfl
  | step _ _ ih => exact ih

end Reaches

end Cpu6502.Cpu

namespace Cpu6502

variable {β : Type}

structure Stop (β : Type) where
  ending : Ending
  registers : Registers
  memory : β

def Outcome.stop (o : Outcome Step β) : Stop β := ⟨.ofResult o.result, o.registers, o.memory⟩

def Run.stop (s : Run β) : Stop β := ⟨s.ending, s.registers, s.memory⟩

theorem Ending.ofResult_eq_faulted {result : Except Fault Step} {f : Fault} :
    ofResult result = .faulted f ↔ result = .error f := by
  rcases result with g | (_ | _) <;> simp [ofResult]

theorem Ending.ofResult_eq_halted {result : Except Fault Step} :
    ofResult result = .halted ↔ result = .ok .halt := by
  rcases result with f | (_ | _) <;> simp [ofResult]

theorem Run.stop_ofOutcomes_cons (r : Registers) (b : β) (o : Outcome Step β)
    (os : List (Outcome Step β)) (h : o.result = .ok .proceed) :
    (ofOutcomes r b (o :: os)).stop = (ofOutcomes o.registers o.memory os).stop := by
  cases hl : os.getLast? <;> simp [ofOutcomes, stop, Ending.ofResult, List.getLast?_cons, hl, h]

namespace Cpu

variable {c d : Cpu} {bus : Bus β} {b m : β} {e : Stop β} {k n : Nat}

def Ends (c : Cpu) (bus : Bus β) (b : β) (e : Stop β) : Prop :=
  e.ending ≠ .unfinished ∧ ∃ n, (c.run bus b n).stop = e

theorem run_of_proceed (h : (c.step bus b).result = .ok .proceed) :
    (c.run bus b (n + 1)).stop =
      (run { c with registers := (c.step bus b).registers } bus (c.step bus b).memory n).stop := by
  rw [run_eq_ofOutcomes, run_eq_ofOutcomes, walk, h]
  exact Run.stop_ofOutcomes_cons _ _ _ _ h

theorem run_of_stop (h : (c.step bus b).result ≠ .ok .proceed) :
    (c.run bus b (n + 1)).stop = (c.step bus b).stop := by
  rw [run_eq_ofOutcomes, walk]
  split
  · rename_i hp
    exact absurd hp h
  · rfl

theorem not_unfinished_of_stop {o : Outcome Step β} (h : o.result ≠ .ok .proceed) :
    o.stop.ending ≠ .unfinished := by
  obtain ⟨result, r, b, as, ms⟩ := o
  rcases result with f | (_ | _)
  · exact nofun
  · exact absurd rfl h
  · exact nofun

theorem ends_of_proceed (h : (c.step bus b).result = .ok .proceed) :
    c.Ends bus b e ↔
      Ends { c with registers := (c.step bus b).registers } bus (c.step bus b).memory e := by
  constructor
  · rintro ⟨he, n, hn⟩
    cases n with
    | zero =>
      rw [← hn] at he
      exact absurd rfl he
    | succ n => exact ⟨he, n, (run_of_proceed h).symm.trans hn⟩
  · rintro ⟨he, n, hn⟩
    exact ⟨he, n + 1, (run_of_proceed h).trans hn⟩

theorem ends_of_stop (h : (c.step bus b).result ≠ .ok .proceed) :
    c.Ends bus b e ↔ e = (c.step bus b).stop := by
  constructor
  · rintro ⟨he, n, hn⟩
    cases n with
    | zero =>
      rw [← hn] at he
      exact absurd rfl he
    | succ n => exact hn.symm.trans (run_of_stop h)
  · rintro rfl
    exact ⟨not_unfinished_of_stop h, 1, run_of_stop h⟩

namespace Reaches

theorem run_stop (h : Reaches bus k c b d m) (n : Nat) :
    (c.run bus b (k + n)).stop = (d.run bus m n).stop := by
  induction h with
  | refl c b => rw [Nat.zero_add]
  | step hs _ ih => rw [Nat.add_right_comm, run_of_proceed hs, ih]

theorem run_eq_stop (h : Reaches bus k c b d m) (hd : (d.step bus m).result ≠ .ok .proceed)
    (hk : k < n) : (c.run bus b n).stop = (d.step bus m).stop := by
  obtain ⟨j, rfl⟩ := Nat.exists_eq_add_of_lt hk
  rw [Nat.add_assoc, h.run_stop, run_of_stop hd]

theorem run_unfinished (h : Reaches bus n c b d m) (hk : k ≤ n) :
    (c.run bus b k).ending = .unfinished := by
  induction h generalizing k with
  | refl c b =>
    obtain rfl : k = 0 := Nat.le_zero.mp hk
    rfl
  | step hs _ ih =>
    cases k with
    | zero => rfl
    | succ k =>
      exact (congrArg Stop.ending (run_of_proceed hs)).trans (ih (Nat.le_of_succ_le_succ hk))

theorem run_halted (h : Reaches bus n c b d m) (hhalt : (d.step bus m).result = .ok .halt)
    (hk : n < k) :
    let s := c.run bus b k
    s.ending = .halted ∧ s.registers = (d.step bus m).registers ∧
      s.memory = (d.step bus m).memory := by
  intro s
  have hstop : s.stop = (d.step bus m).stop := h.run_eq_stop (by simp [hhalt]) hk
  obtain ⟨hending, hregisters, hmemory⟩ := Stop.mk.inj hstop
  exact ⟨hending.trans (Ending.ofResult_eq_halted.mpr hhalt), hregisters, hmemory⟩

theorem ends_iff (h : Reaches bus k c b d m) (e : Stop β) : c.Ends bus b e ↔ d.Ends bus m e := by
  induction h with
  | refl c b => exact Iff.rfl
  | step hs _ ih => exact (ends_of_proceed hs).trans ih

end Reaches

/-- A run of `n` steps at most proceeds that many times, or up to a step that does not and that
it ends with. -/
theorem run_cases (c : Cpu) (bus : Bus β) (b : β) (n : Nat) :
    (∃ d m, Reaches bus n c b d m ∧ (c.run bus b n).stop = ⟨.unfinished, d.registers, m⟩) ∨
      ∃ k d m, k < n ∧ Reaches bus k c b d m ∧ (d.step bus m).result ≠ .ok .proceed ∧
        (c.run bus b n).stop = (d.step bus m).stop := by
  induction n generalizing c b with
  | zero => exact .inl ⟨c, b, .refl c b, rfl⟩
  | succ n ih =>
    by_cases hs : (c.step bus b).result = .ok .proceed
    · rw [run_of_proceed hs]
      rcases ih { c with registers := (c.step bus b).registers } (c.step bus b).memory with
        ⟨d, m, hreach, hstop⟩ | ⟨k, d, m, hk, hreach, hd, hstop⟩
      · exact .inl ⟨d, m, .step hs hreach, hstop⟩
      · exact .inr ⟨k + 1, d, m, Nat.succ_lt_succ hk, .step hs hreach, hd, hstop⟩
    · exact .inr ⟨0, c, b, Nat.succ_pos n, .refl c b, hs, run_of_stop hs⟩

theorem run_finished (h : (c.run bus b n).ending ≠ .unfinished) :
    ∃ k d m, k < n ∧ Reaches bus k c b d m ∧ (d.step bus m).result ≠ .ok .proceed ∧
      (c.run bus b n).stop = (d.step bus m).stop := by
  rcases c.run_cases bus b n with ⟨d, m, -, hstop⟩ | hend
  · exact absurd (congrArg Stop.ending hstop) h
  · exact hend

theorem reaches_of_unfinished (h : (c.run bus b n).ending = .unfinished) :
    ∃ d m, Reaches bus n c b d m := by
  rcases c.run_cases bus b n with ⟨d, m, hreach, -⟩ | ⟨k, d, m, -, -, hd, hstop⟩
  · exact ⟨d, m, hreach⟩
  · exact absurd ((congrArg Stop.ending hstop).symm.trans h) (not_unfinished_of_stop hd)

end Cpu

end Cpu6502
