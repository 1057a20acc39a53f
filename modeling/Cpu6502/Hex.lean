/-!
Fixed-width hexadecimal text in upper case, the form in which addresses and bytes are
reported. The text of a byte has two digits and that of a word four.
-/

namespace Cpu6502.Hex

def digit (n : Nat) : Char :=
  if n < 10 then Char.ofNat (48 + n) else Char.ofNat (55 + n)

def digits : Nat → Nat → List Char
  | 0, _ => []
  | width + 1, n => digits width (n / 16) ++ [digit (n % 16)]

def byte (b : UInt8) : String := String.ofList (digits 2 b.toNat)

def word (w : UInt16) : String := String.ofList (digits 4 w.toNat)

theorem digits_length (width n : Nat) : (digits width n).length = width := by
  induction width generalizing n with
  | zero => rfl
  | succ width ih => simp [digits, ih]

theorem digit_inj : ∀ m < 16, ∀ n < 16, digit m = digit n → m = n := by decide

theorem digit_ne_lower : ∀ n < 16, digit n ≠ 'd' := by decide

theorem digits_succ_inj {width m n : Nat} (h : digits (width + 1) m = digits (width + 1) n) :
    digits width (m / 16) = digits width (n / 16) ∧ m % 16 = n % 16 := by
  obtain ⟨hupper, hlast⟩ := List.append_inj' h rfl
  have hmod : m % 16 = n % 16 :=
    digit_inj _ (Nat.mod_lt m (by decide)) _ (Nat.mod_lt n (by decide)) (List.head_eq_of_cons_eq hlast)
  exact ⟨hupper, hmod⟩

theorem word_inj {v w : UInt16} (h : word v = word w) : v = w := by
  have hv := v.toNat_lt
  have hw := w.toNat_lt
  have hdigits : digits 4 v.toNat = digits 4 w.toNat := String.ofList_inj.mp h
  obtain ⟨hthree, hlast⟩ := digits_succ_inj hdigits
  obtain ⟨htwo, hthird⟩ := digits_succ_inj hthree
  obtain ⟨hone, hsecond⟩ := digits_succ_inj htwo
  obtain ⟨-, hfirst⟩ := digits_succ_inj hone
  apply UInt16.toNat_inj.mp
  omega

end Cpu6502.Hex
