import BootConfig.Text.Digits

/-!
# Digits read back

The digits of a number spell that number, in decimal and for the two hexadecimal digits of a byte.
-/

namespace BootConfig.Digits

/-! ## Single digits -/

theorem isDigit_bounds {c : Char} (h : c.isDigit = true) : 48 ≤ c.toNat ∧ c.toNat ≤ 57 := by
  simp only [Char.isDigit, Bool.and_eq_true, decide_eq_true_eq] at h
  exact ⟨UInt32.le_iff_toNat_le.mp h.1, UInt32.le_iff_toNat_le.mp h.2⟩

theorem value?_of_isDigit {c : Char} (h : c.isDigit = true) : value? c = some (c.toNat - 48) := by
  obtain ⟨h₁, h₂⟩ := isDigit_bounds h
  have hc : '0' ≤ c ∧ c ≤ '9' := ⟨UInt32.le_iff_toNat_le.mpr h₁, UInt32.le_iff_toNat_le.mpr h₂⟩
  simp only [value?, hc, and_self, if_true]

theorem isDigit_ten {c : Char} (h : c.isDigit = true) : isDigit 10 c = true := by
  obtain ⟨h₁, h₂⟩ := isDigit_bounds h
  simp only [isDigit, value?_of_isDigit h, Option.any_some, decide_eq_true_eq]
  omega

theorem value?_lowerHex : ∀ d < 16, value? (lowerHex d) = some d := by decide

/-! ## Decimal numbers -/

theorem decimal_eq (n : Nat) : decimal n = toString n := rfl

theorem isDigit_of_mem_toDigits {n : Nat} {c : Char} (h : c ∈ Nat.toDigits 10 n) :
    c.isDigit = true :=
  Nat.isDigit_of_mem_toDigits (by decide) (by decide) h

theorem append_eq (base : Nat) {ds : List Char} (h : ∀ c ∈ ds, c.isDigit = true) (n : Nat) :
    append base n ds = Nat.ofDigitChars base ds n := by
  induction ds generalizing n with
  | nil => rfl
  | cons c ds ih =>
      have hc := value?_of_isDigit (h c (by simp))
      have ht := ih (fun d hd => h d (by simp [hd])) (base * n + (c.toNat - 48))
      simp only [append, List.foldl_cons, hc, Option.getD_some] at ht ⊢
      rw [ht, Nat.ofDigitChars_cons]
      rfl

theorem number_ten {ds : List Char} (h : ∀ c ∈ ds, c.isDigit = true) :
    number 10 ds = Nat.ofDigitChars 10 ds 0 := append_eq 10 h 0

theorem number_toDigits (n : Nat) : number 10 (Nat.toDigits 10 n) = n := by
  rw [number_ten (fun _ h => isDigit_of_mem_toDigits h), Nat.ofDigitChars_ten_toDigits]

theorem number?_ten {ds : List Char} (hne : ds ≠ []) (h : ∀ c ∈ ds, c.isDigit = true) :
    number? 10 ds = some (number 10 ds) := by
  have hall : ds.all (isDigit 10) = true := List.all_eq_true.mpr fun c hc => isDigit_ten (h c hc)
  simp [number?, hne, hall]

/-- The first digit of a positive number is no zero. -/
theorem head?_toDigits_ne_zero {n : Nat} (h : 0 < n) : (Nat.toDigits 10 n).head? ≠ some '0' := by
  induction n using Nat.strongRecOn with
  | ind n ih =>
      rw [Nat.toDigits_eq_if (by decide)]
      split
      · rename_i hlt
        match n, h, hlt with
        | 1, _, _ | 2, _, _ | 3, _, _ | 4, _, _ | 5, _, _ | 6, _, _ | 7, _, _ | 8, _, _ | 9, _, _ =>
            decide
      · rename_i hge
        have hd := ih (n / 10) (by omega) (by omega)
        cases hds : Nat.toDigits 10 (n / 10) with
        | nil => exact absurd hds Nat.toDigits_ne_nil
        | cons d ds => rwa [hds] at hd

/-! ## Hexadecimal numbers -/

/-- Four hexadecimal digits, the first two of them zero, spell a byte. -/
theorem number?_hex {n : Nat} (h : n < 256) :
    number? 16 ['0', '0', lowerHex (n / 16), lowerHex (n % 16)] = some n := by
  have h₁ := value?_lowerHex (n / 16) (by omega)
  have h₂ := value?_lowerHex (n % 16) (by omega)
  have h₀ : value? '0' = some 0 := by decide
  have hlt : n / 16 < 16 ∧ n % 16 < 16 := by omega
  simp [number?, number, append, isDigit, h₀, h₁, h₂, hlt]
  omega

end BootConfig.Digits
