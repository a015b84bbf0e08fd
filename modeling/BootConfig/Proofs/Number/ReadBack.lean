import BootConfig.Number.Decimal
import BootConfig.Proofs.Number.Shortest

/-!
# Numbers read back

The text of a finite number in canonical form is read as that number.
-/

namespace BootConfig

open Double (IsDigits IsWhole Spelling Canonical InReach power power_value spell unsignedText)

namespace Decimal

/-! ## Reading -/

/-- What stands behind the digits of a number. -/
def NoDigits (tail : List Char) : Prop :=
  tail.takeWhile Char.isDigit = [] ∧ tail.dropWhile Char.isDigit = tail

theorem noDigits_nil : NoDigits [] := ⟨rfl, rfl⟩

theorem noDigits_cons {c : Char} (h : c.isDigit = false) (cs : List Char) : NoDigits (c :: cs) := by
  simp [NoDigits, h]

theorem takeWhile_digits {ds tail : List Char} (h : ∀ c ∈ ds, c.isDigit = true)
    (ht : NoDigits tail) :
    (ds ++ tail).takeWhile Char.isDigit = ds ∧ (ds ++ tail).dropWhile Char.isDigit = tail := by
  rw [List.takeWhile_append_of_pos h, List.dropWhile_append_of_pos h, ht.1, ht.2, List.append_nil]
  exact ⟨rfl, rfl⟩

theorem sign_unsigned {ds : List Char} (h : IsDigits ds) (tail : List Char) :
    Digits.sign (ds ++ tail) = (false, ds ++ tail) := by
  cases ds with
  | nil => exact absurd rfl h.ne_nil
  | cons d ds =>
      have hd := h.digit d (by simp)
      rw [List.cons_append]
      unfold Digits.sign
      split
      · rename_i heq; simp only [List.cons.injEq] at heq; rw [heq.1] at hd; cases hd
      · rename_i heq; simp only [List.cons.injEq] at heq; rw [heq.1] at hd; cases hd
      · rfl

variable {w f r : List Char}

/-- Digits without a point, and with one. -/
theorem read?_whole (negative : Bool) (text : List Char)
    (hs : Digits.sign text = (negative, w ++ r)) (hw : IsDigits w)
    (ht : NoDigits r) (hp : r.head? ≠ some '.') :
    read? text = (exponentPart? r).map fun e => ⟨negative, Digits.number 10 w, e⟩ := by
  obtain ⟨h₁, h₂⟩ := takeWhile_digits hw.digit ht
  have hne : w.isEmpty = false := by simp [hw.ne_nil]
  unfold read?
  rw [hs]
  simp only [h₁, h₂, hne, Bool.false_and, Bool.false_eq_true, if_false]
  split
  · exact absurd rfl hp
  · simp

theorem read?_fraction (negative : Bool) (text : List Char)
    (hs : Digits.sign text = (negative, w ++ '.' :: (f ++ r)))
    (hw : IsDigits w) (hf : IsDigits f) (ht : NoDigits r) :
    read? text =
      (exponentPart? r).map fun e => ⟨negative, Digits.number 10 (w ++ f), e - f.length⟩ := by
  obtain ⟨h₁, h₂⟩ := takeWhile_digits hw.digit (noDigits_cons (c := '.') rfl (f ++ r))
  obtain ⟨h₃, h₄⟩ := takeWhile_digits hf.digit ht
  have hne : w.isEmpty = false := by simp [hw.ne_nil]
  unfold read?
  rw [hs]
  simp only [h₁, h₂, h₃, h₄, hne, Bool.false_and, Bool.false_eq_true, if_false]

/-! ## Spelled numbers -/

theorem number_zeros_append (n : Nat) (ds : List Char) :
    Digits.number 10 (List.replicate n '0' ++ ds) = Digits.number 10 ds := by
  induction n with
  | zero => rfl
  | succ n ih => exact ih

theorem number_append_zeros (ds : List Char) (n : Nat) :
    Digits.number 10 (ds ++ List.replicate n '0') = Digits.number 10 ds * 10 ^ n := by
  induction n with
  | zero => simp
  | succ n ih =>
      have hz : (Digits.value? '0').getD 0 = 0 := rfl
      rw [List.replicate_succ', ← List.append_assoc, Digits.number, Digits.append,
        List.foldl_append]
      change 10 * Digits.number 10 (ds ++ List.replicate n '0') + (Digits.value? '0').getD 0 = _
      rw [ih, hz, pow_succ]
      ring

theorem exponentPart?_letter (e : Int) :
    exponentPart? ('e' :: (if e < 0 then '-' else '+') :: Nat.toDigits 10 e.natAbs) = some e := by
  have hn :=
    Digits.number?_ten (IsDigits.of_toDigits e.natAbs).ne_nil (IsDigits.of_toDigits e.natAbs).digit
  rw [Digits.number_toDigits] at hn
  split
  · have hv : Digits.signed true e.natAbs = e := by simp only [Digits.signed, if_true]; omega
    simp [exponentPart?, Digits.sign, hn, hv]
  · have hv : Digits.signed false e.natAbs = e := by
      simp only [Digits.signed, Bool.false_eq_true, if_false]; omega
    simp [exponentPart?, Digits.sign, hn, hv]

theorem read?_point {negative : Bool} {text : List Char}
    (hs : Digits.sign text = (negative, w ++ '.' :: f)) (hw : IsDigits w) (hf : IsDigits f) :
    read? text = some ⟨negative, Digits.number 10 (w ++ f), -f.length⟩ := by
  have hr :=
    read?_fraction negative text (r := []) (by rw [List.append_nil]; exact hs) hw hf noDigits_nil
  rw [hr]
  simp [exponentPart?]

section Spelled

variable {negative : Bool} {text ds : List Char} {k : Int}

/-- A decimal that stands for the number of digits and a power of ten. -/
def Says (negative : Bool) (ds : List Char) (k : Int) (d : Decimal) : Prop :=
  d.negative = negative ∧ d.digits ≠ 0 ∧
    (d.digits : ℚ) * 10 ^ d.exponent = Digits.number 10 ds * 10 ^ k

theorem read?_positional (h : IsDigits ds) (hd : Digits.number 10 ds ≠ 0) (hk : 0 ≤ k)
    (hs : Digits.sign text = (negative, ds ++ List.replicate k.toNat '0' ++ ['.', '0'])) :
    ∃ d, read? text = some d ∧ Says negative ds k d := by
  obtain ⟨n, rfl⟩ := Int.eq_ofNat_of_zero_le hk
  refine ⟨_, read?_point hs (h.append_zeros _) Double.isDigits_zero, rfl, ?_⟩
  have hz := number_append_zeros ds (n + 1)
  rw [List.replicate_succ', ← List.append_assoc] at hz
  simp only [Int.toNat_natCast, hz, List.length_singleton, zpow_natCast]
  refine ⟨Nat.mul_ne_zero hd (by positivity), ?_⟩
  push_cast
  rw [pow_succ]
  norm_num
  ring

theorem read?_split (h : IsDigits ds) (hd : Digits.number 10 ds ≠ 0) {n : Nat} (hn : 0 < n)
    (hk : (n : Int) = k + ds.length)
    (hlt : n < ds.length) (hs : Digits.sign text = (negative, ds.take n ++ '.' :: ds.drop n)) :
    ∃ d, read? text = some d ∧ Says negative ds k d := by
  refine ⟨_, read?_point hs (h.take hn) (h.drop hlt), rfl, ?_⟩
  have he : -((ds.drop n).length : Int) = k := by
    rw [List.length_drop]
    omega
  simp only [List.take_append_drop, he]
  exact ⟨hd, trivial⟩

theorem read?_below (h : IsDigits ds) (hd : Digits.number 10 ds ≠ 0) {n : Nat}
    (hk : (n : Int) = -k - ds.length)
    (hs : Digits.sign text = (negative, '0' :: '.' :: (List.replicate n '0' ++ ds))) :
    ∃ d, read? text = some d ∧ Says negative ds k d := by
  have hr := read?_point (w := ['0']) hs Double.isDigits_zero (h.zeros_append _)
  have hz : Digits.number 10 (['0'] ++ (List.replicate n '0' ++ ds)) = Digits.number 10 ds :=
    number_zeros_append (n + 1) ds
  have he : -((List.replicate n '0' ++ ds).length : Int) = k := by
    rw [List.length_append, List.length_replicate]
    omega
  rw [hz, he] at hr
  exact ⟨_, hr, rfl, hd, rfl⟩

theorem read?_digit {d : Char} (h : IsDigits [d]) (hd : Digits.number 10 [d] ≠ 0)
    (hs : Digits.sign text =
      (negative, [d] ++ 'e' :: (if k < 0 then '-' else '+') :: Nat.toDigits 10 k.natAbs)) :
    ∃ d', read? text = some d' ∧ Says negative [d] k d' := by
  have hr := read?_whole negative text hs h (noDigits_cons rfl _) (by simp)
  rw [exponentPart?_letter] at hr
  exact ⟨_, hr, rfl, hd, rfl⟩

theorem read?_scientific {d : Char} (h : IsDigits (d :: ds)) (hne : ds ≠ [])
    (hd : Digits.number 10 (d :: ds) ≠ 0) {e : Int} (he : e = k + ds.length)
    (hs : Digits.sign text =
      (negative,
      d :: '.' :: (ds ++ 'e' :: (if e < 0 then '-' else '+') :: Nat.toDigits 10 e.natAbs))) :
    ∃ d', read? text = some d' ∧ Says negative (d :: ds) k d' := by
  have hw : IsDigits [d] := ⟨fun c hc => h.digit c (by simp_all), by simp⟩
  have hf : IsDigits ds := ⟨fun c hc => h.digit c (List.mem_cons_of_mem _ hc), hne⟩
  have hr := read?_fraction (w := [d]) negative text hs hw hf (noDigits_cons rfl _)
  rw [exponentPart?_letter] at hr
  rw [Option.map_some, show e - (ds.length : Int) = k by omega] at hr
  exact ⟨_, hr, rfl, hd, rfl⟩

/-- A spelled number is read as its digits and its power of ten, or as others that stand for the
same number. -/
theorem read?_spell (hs : Digits.sign text = (negative, spell ds k)) (h : IsDigits ds)
    (hd : Digits.number 10 ds ≠ 0) : ∃ d, read? text = some d ∧ Says negative ds k d := by
  have hpos : 0 < ds.length := List.length_pos_iff.mpr h.ne_nil
  unfold spell at hs
  simp only at hs
  split at hs
  · split at hs
    · rename_i hk
      exact read?_positional h hd hk hs
    · split at hs
      · rename_i hk he
        exact read?_split h hd (by omega) (by omega) (by omega) hs
      · rename_i hk he
        exact read?_below h hd (by omega) hs
  · match ds, h, hd, hs with
    | [], h, _, _ => exact absurd rfl h.ne_nil
    | [d], h, hd, hs =>
        rw [List.length_singleton, Nat.cast_one, Int.add_sub_cancel] at hs
        exact read?_digit h hd hs
    | d :: d' :: ds, h, hd, hs =>
        refine read?_scientific h (by simp) hd ?_ hs
        simp only [List.length_cons]
        omega

end Spelled

/-! ## Rounding -/

theorem isCanonical_toDouble (d : Decimal) : d.toDouble.IsCanonical := by
  unfold toDouble
  simp only
  split
  · exact Double.canonical_zero
  · split
    · trivial
    · split
      · exact Double.canonical_zero
      · exact Double.isCanonical_nearest _ _ (Double.power_pos (by decide) _)

section Rounding

variable {m : Nat} {e : Int} {d : Decimal}

theorem inReach_bounds (hc : Canonical m e) (hm : 0 < m) {x : ℚ} (h : InReach m e x) :
    (2 : ℚ) ^ (-1075 : Int) ≤ x ∧ x < 2 ^ (1024 : Int) := by
  have hp := Double.two_zpow_pos e
  have hone : (1 : ℚ) ≤ m := by exact_mod_cast hm
  have hbits : (m : ℚ) + 1 ≤ power 2 53 := by exact_mod_cast hc.bits
  have hleast : -1074 ≤ e := hc.least
  have hgreatest : e ≤ 971 := hc.greatest
  constructor
  · calc (2 : ℚ) ^ (-1075 : Int) ≤ 2 ^ (e - 1) := zpow_le_zpow_right₀ (by norm_num) (by omega)
      _ = 1 / 2 * 2 ^ e := by rw [zpow_sub₀ (by norm_num)]; ring
      _ ≤ (m - 1 / 2) * 2 ^ e := mul_le_mul_of_nonneg_right (by linarith) hp.le
      _ ≤ x := le_trans (Double.half_below_lowest m e) h.lower
  · calc x ≤ (m + 1 / 2) * 2 ^ e := h.upper
      _ < power 2 53 * 2 ^ e := mul_lt_mul_of_pos_right (by linarith) hp
      _ = 2 ^ (e + 53) := by rw [Double.two_zpow_add, Double.two_zpow_53]
      _ ≤ 2 ^ (1024 : Int) := zpow_le_zpow_right₀ (by norm_num) (by omega)

/-- A decimal of a size that numbers have is neither infinite nor zero. -/
theorem toDouble_of_bounds (hd : d.digits ≠ 0)
    (hl : (2 : ℚ) ^ (-1075 : Int) ≤ d.digits * 10 ^ d.exponent)
    (hu : (d.digits : ℚ) * 10 ^ d.exponent < 2 ^ (1024 : Int)) :
    d.toDouble = .nearest d.negative (d.digits * power 10 d.exponent) (power 10 (-d.exponent)) := by
  obtain ⟨h₁, h₂⟩ := Double.log2_bounds (Nat.pos_of_ne_zero hd)
  have hp := Double.ten_zpow_pos d.exponent
  have hlarge : ¬d.exponent + (d.digits.log2 : Int) * 3 / 10 > 400 := fun h => by
    have : (2 : ℚ) ^ (1024 : Int) ≤ d.digits * 10 ^ d.exponent := by
      calc (2 : ℚ) ^ (1024 : Int) = (2 ^ (-1024 : Int))⁻¹ := by rw [← zpow_neg]; rfl
        _ ≤ (10 ^ (-401 : Int))⁻¹ :=
          inv_anti₀ (Double.ten_zpow_pos _) (Double.ten_zpow_le (by norm_num))
        _ = 10 ^ (401 : Int) := by rw [← zpow_neg]; rfl
        _ ≤ 10 ^ ((d.digits.log2 : Int) * 3 / 10 + d.exponent) :=
          zpow_le_zpow_right₀ (by norm_num) (by omega)
        _ = 10 ^ ((d.digits.log2 : Int) * 3 / 10) * 10 ^ d.exponent := zpow_add₀ (by norm_num) _ _
        _ ≤ 2 ^ (d.digits.log2 : Int) * 10 ^ d.exponent :=
            mul_le_mul_of_nonneg_right (Double.ten_zpow_le (by split <;> omega)) hp.le
        _ ≤ d.digits * 10 ^ d.exponent := mul_le_mul_of_nonneg_right h₁ hp.le
    linarith
  have hsmall : ¬d.exponent + (d.digits.log2 : Int) + 1 < -400 := fun h => by
    have : (d.digits : ℚ) * 10 ^ d.exponent < 2 ^ (-1075 : Int) := by
      calc (d.digits : ℚ) * 10 ^ d.exponent < 2 ^ ((d.digits.log2 : Int) + 1) * 10 ^ d.exponent :=
            mul_lt_mul_of_pos_right h₂ hp
        _ ≤ 10 ^ ((d.digits.log2 : Int) + 1) * 10 ^ d.exponent :=
            mul_le_mul_of_nonneg_right
              (zpow_le_zpow_left₀ (by omega) (by norm_num) (by norm_num)) hp.le
        _ = 10 ^ ((d.digits.log2 : Int) + 1 + d.exponent) := (zpow_add₀ (by norm_num) _ _).symm
        _ ≤ 10 ^ (-401 : Int) := zpow_le_zpow_right₀ (by norm_num) (by omega)
        _ ≤ 2 ^ (-1075 : Int) := Double.ten_zpow_le (by norm_num)
    linarith
  unfold toDouble
  simp only
  rw [if_neg hd, if_neg hlarge, if_neg hsmall]

theorem toDouble_of_inReach (hc : Canonical m e) (hm : 0 < m) (hd : d.digits ≠ 0)
    (h : InReach m e (d.digits * 10 ^ d.exponent)) : d.toDouble = .finite d.negative m e := by
  obtain ⟨hl, hu⟩ := inReach_bounds hc hm h
  have hv := power_value (show 0 < 10 by decide) d.exponent
  have hpow : ∀ k, 0 < power 10 k := fun k => Double.power_pos (by decide) k
  rw [toDouble_of_bounds hd hl hu]
  refine Double.nearest_of_inReach _ hc (Nat.mul_pos (Nat.pos_of_ne_zero hd) (hpow _)) (hpow _) ?_
  rw [Nat.cast_mul, mul_div_assoc, hv]
  exact h

end Rounding

theorem read?_unsignedText {negative : Bool} {m : Nat} {e : Int} (hc : Canonical m e)
    {text : List Char} (hs : Digits.sign text = (negative, unsignedText m e)) :
    (read? text).map toDouble = some (.finite negative m e) := by
  unfold unsignedText at hs
  split at hs
  · rename_i hm
    subst hm
    have he : e = Double.minExponent := hc.full.resolve_left (by decide)
    rw [read?_point (w := ['0']) (f := ['0']) hs Double.isDigits_zero Double.isDigits_zero, he]
    rfl
  · rename_i hm
    have hr := Double.inReach_shortest hc (Nat.pos_of_ne_zero hm)
    have hn := Digits.number_toDigits (Double.shortest m e).1
    have hd : Digits.number 10 (Nat.toDigits 10 (Double.shortest m e).1) ≠ 0 := by
      rw [hn]
      intro h
      rw [h, Nat.cast_zero, zero_mul] at hr
      have := (inReach_bounds hc (Nat.pos_of_ne_zero hm) hr).1
      have := Double.two_zpow_pos (-1075)
      linarith
    obtain ⟨d, hd', hneg, hdigits, hv⟩ := read?_spell hs (.of_toDigits _) hd
    rw [hn] at hv
    rw [← hv] at hr
    rw [hd', Option.map_some, toDouble_of_inReach hc (Nat.pos_of_ne_zero hm) hdigits hr, hneg]

end Decimal

end BootConfig
