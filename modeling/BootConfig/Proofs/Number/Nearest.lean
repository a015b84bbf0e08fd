import BootConfig.Proofs.Number.Spelling
import Mathlib.Algebra.Order.Field.Power
import Mathlib.Data.Rat.Cast.Order
import Mathlib.Tactic.Linarith
import Mathlib.Tactic.Positivity
import Mathlib.Tactic.FieldSimp
import Mathlib.Tactic.Ring

/-!
# Rounding to the nearest number

A fraction between the halfway points around a number in canonical form is rounded to that number,
and what is rounded is in canonical form.
-/

namespace BootConfig.Double

/-! ## Fractions -/

/-- The number that a fraction stands for. -/
def Fraction.value (a : Fraction) : ℚ := a.num / a.den

/-- A power of a base that is not zero, from the powers of its exponent's parts. -/
theorem power_value {base : Nat} (hb : 0 < base) (e : Int) :
    (power base e : ℚ) / power base (-e) = (base : ℚ) ^ e := by
  have hb' : (base : ℚ) ≠ 0 := by positivity
  have hpos : ∀ n : Nat, (power base n : ℚ) = (base : ℚ) ^ n := fun n => by simp [power]
  have hneg : ∀ n : Nat, (power base (-n) : ℚ) = 1 := fun n => by
    have h : (-(n : Int)).toNat = 0 := by omega
    simp [power, h]
  rcases Int.eq_nat_or_neg e with ⟨n, rfl | rfl⟩
  · rw [hneg, div_one, hpos, zpow_natCast]
  · rw [Int.neg_neg, hneg, hpos, zpow_neg, zpow_natCast, one_div]

theorem power_cast {base : Nat} {e : Int} (h : 0 ≤ e) : (power base e : ℚ) = (base : ℚ) ^ e := by
  obtain ⟨n, rfl⟩ := Int.eq_ofNat_of_zero_le h
  simp [power]

theorem power_pos_cast {base : Nat} (hb : 0 < base) (e : Int) : (0 : ℚ) < power base e := by
  exact_mod_cast power_pos hb e

theorem Fraction.value_ofScaled (n : Nat) (e : Int) :
    (Fraction.ofScaled n e).value = n * 2 ^ e := by
  have h := power_value (show 0 < 2 by decide) e
  simp only [Fraction.value, Fraction.ofScaled, Nat.cast_mul, mul_div_assoc, h, Nat.cast_ofNat]

theorem Fraction.value_ofDecimal (n : Nat) (k : Int) :
    (Fraction.ofDecimal n k).value = n * 10 ^ k := by
  have h := power_value (show 0 < 10 by decide) k
  simp only [Fraction.value, Fraction.ofDecimal, Nat.cast_mul, mul_div_assoc, h, Nat.cast_ofNat]

theorem Fraction.le_iff {a b : Fraction} (ha : 0 < a.den) (hb : 0 < b.den) :
    a.le b = true ↔ a.value ≤ b.value := by
  have ha' : (0 : ℚ) < a.den := by exact_mod_cast ha
  have hb' : (0 : ℚ) < b.den := by exact_mod_cast hb
  rw [Fraction.le, decide_eq_true_eq, Fraction.value, Fraction.value, div_le_div_iff₀ ha' hb']
  norm_cast

theorem Fraction.lt_iff {a b : Fraction} (ha : 0 < a.den) (hb : 0 < b.den) :
    a.lt b = true ↔ a.value < b.value := by
  have ha' : (0 : ℚ) < a.den := by exact_mod_cast ha
  have hb' : (0 : ℚ) < b.den := by exact_mod_cast hb
  rw [Fraction.lt, decide_eq_true_eq, Fraction.value, Fraction.value, div_lt_div_iff₀ ha' hb']
  norm_cast

/-! ## Rounding -/

/-- A number no further than a half from a quotient, and even where it is a half away, is the
rounded quotient. -/
theorem roundDiv_eq {num den m : Nat} (hd : 0 < den) (hl : 2 * (m * den) ≤ 2 * num + den)
    (hu : 2 * num ≤ 2 * (m * den) + den)
    (he : m % 2 = 1 → 2 * (m * den) < 2 * num + den ∧ 2 * num < 2 * (m * den) + den) :
    roundDiv num den = m := by
  have hnum : num / den * den + num % den = num := by
    rw [Nat.mul_comm]; exact Nat.div_add_mod num den
  have hmod := Nat.mod_lt num hd
  have hge : num / den ≤ m := by
    refine Nat.le_of_not_lt fun hlt => ?_
    have hmul : (m + 1) * den ≤ num / den * den := Nat.mul_le_mul_right den hlt
    rw [Nat.add_mul] at hmul
    omega
  have hle : m ≤ num / den + 1 := by
    refine Nat.le_of_not_lt fun hlt => ?_
    have hmul : (num / den + 2) * den ≤ m * den := Nat.mul_le_mul_right den hlt
    rw [Nat.add_mul] at hmul
    omega
  unfold roundDiv
  simp only
  generalize num / den = q at *
  generalize num % den = r at *
  rcases Nat.eq_or_lt_of_le hge with rfl | hlt
  · split
    · rfl
    · rw [if_neg (by omega)]
      -- Half a step above an even number.
      rcases Nat.mod_two_eq_zero_or_one q with hq | hq
      · omega
      · have := (he hq).2
        omega
  · obtain rfl : m = q + 1 := by omega
    rw [Nat.add_mul] at hl hu he
    rw [if_neg (by omega)]
    split
    · rfl
    · rcases Nat.mod_two_eq_zero_or_one (q + 1) with hq | hq
      · omega
      · have := (he hq).1
        omega

theorem roundDiv_eq_of_near {num den m : Nat} (hd : 0 < den) (hl : (m : ℚ) - 1 / 2 ≤ num / den)
    (hu : (num : ℚ) / den ≤ m + 1 / 2)
    (he : m % 2 = 1 → (m : ℚ) - 1 / 2 < num / den ∧ (num : ℚ) / den < m + 1 / 2) :
    roundDiv num den = m := by
  have hd' : (0 : ℚ) < den := by exact_mod_cast hd
  rw [le_div_iff₀ hd'] at hl
  rw [div_le_iff₀ hd'] at hu
  refine roundDiv_eq hd ?_ ?_ fun hm => ?_
  · have : (2 * (m * den) : ℚ) ≤ 2 * num + den := by linarith
    exact_mod_cast this
  · have : (2 * num : ℚ) ≤ 2 * (m * den) + den := by linarith
    exact_mod_cast this
  · obtain ⟨h₁, h₂⟩ := he hm
    rw [lt_div_iff₀ hd'] at h₁
    rw [div_lt_iff₀ hd'] at h₂
    have h₁' : (2 * (m * den) : ℚ) < 2 * num + den := by linarith
    have h₂' : (2 * num : ℚ) < 2 * (m * den) + den := by linarith
    exact ⟨by exact_mod_cast h₁', by exact_mod_cast h₂'⟩

/-! ## The exponent -/

theorem log2_bounds {n : Nat} (h : 0 < n) :
    (2 : ℚ) ^ (n.log2 : Int) ≤ n ∧ (n : ℚ) < 2 ^ ((n.log2 : Int) + 1) := by
  have h₁ : 2 ^ n.log2 ≤ n := Nat.log2_self_le (by omega)
  have h₂ : n < 2 ^ (n.log2 + 1) := Nat.lt_log2_self
  have h₃ : (2 : ℚ) ^ ((n.log2 : Int) + 1) = ((2 ^ (n.log2 + 1) : Nat) : ℚ) := by
    rw [Nat.cast_pow, ← zpow_natCast]
    push_cast
    rfl
  refine ⟨?_, by rw [h₃]; exact_mod_cast h₂⟩
  rw [zpow_natCast]
  exact_mod_cast h₁

/-- The greatest power of two up to a positive fraction. -/
theorem floorLog2_bounds {num den : Nat} (hn : 0 < num) (hd : 0 < den) :
    (2 : ℚ) ^ floorLog2 num den ≤ num / den ∧ (num : ℚ) / den < 2 ^ (floorLog2 num den + 1) := by
  have hd' : (0 : ℚ) < den := by exact_mod_cast hd
  obtain ⟨hn₁, hn₂⟩ := log2_bounds hn
  obtain ⟨hd₁, hd₂⟩ := log2_bounds hd
  have hpow : ∀ a b : Int, (2 : ℚ) ^ (a + b) = 2 ^ a * 2 ^ b :=
    fun a b => zpow_add₀ (by norm_num) a b
  have hupper : (num : ℚ) / den < 2 ^ ((num.log2 : Int) - den.log2 + 1) := by
    rw [div_lt_iff₀ hd']
    calc (num : ℚ) < 2 ^ ((num.log2 : Int) + 1) := hn₂
      _ = 2 ^ ((num.log2 : Int) - den.log2 + 1) * 2 ^ (den.log2 : Int) := by
        rw [← hpow]; congr 1; ring
      _ ≤ 2 ^ ((num.log2 : Int) - den.log2 + 1) * den := by gcongr
  have hlower : (2 : ℚ) ^ ((num.log2 : Int) - den.log2 - 1) ≤ num / den := by
    rw [le_div_iff₀ hd']
    calc (2 : ℚ) ^ ((num.log2 : Int) - den.log2 - 1) * den
        ≤ 2 ^ ((num.log2 : Int) - den.log2 - 1) * 2 ^ ((den.log2 : Int) + 1) := by gcongr
      _ = 2 ^ (num.log2 : Int) := by rw [← hpow]; congr 1; ring
      _ ≤ num := hn₁
  have hiff : den * power 2 ((num.log2 : Int) - den.log2) ≤
      num * power 2 (-((num.log2 : Int) - den.log2)) ↔
      (2 : ℚ) ^ ((num.log2 : Int) - den.log2) ≤ num / den := by
    have h := power_value (show 0 < 2 by decide) ((num.log2 : Int) - den.log2)
    have hp := power_pos_cast (show 0 < 2 by decide) (-((num.log2 : Int) - den.log2))
    rw [Nat.cast_ofNat] at h
    rw [← h, div_le_div_iff₀ hp hd', ← Nat.cast_mul, ← Nat.cast_mul, Nat.cast_le, Nat.mul_comm den]
  unfold floorLog2
  simp only
  split
  · rename_i h
    exact ⟨hiff.mp h, hupper⟩
  · rename_i h
    refine ⟨hlower, ?_⟩
    rw [Int.sub_add_cancel]
    exact lt_of_not_ge fun hc => h (hiff.mpr hc)

/-! ## Numbers in canonical form -/

/-- A significand of 53 bits, or of fewer where the exponent is the least one. -/
structure Canonical (significand : Nat) (exponent : Int) : Prop where
  bits : significand < power 2 53
  least : minExponent ≤ exponent
  greatest : exponent ≤ maxExponent
  full : power 2 52 ≤ significand ∨ exponent = minExponent

theorem canonical_zero : Canonical 0 minExponent := ⟨by decide, by decide, by decide, Or.inr rfl⟩

/-- The quotient of a fraction by a power of two. -/
theorem scaled_value (num den : Nat) (e : Int) :
    ((num * power 2 (-e) : Nat) : ℚ) / ((den * power 2 e : Nat) : ℚ) = num / den / 2 ^ e := by
  have h := power_value (show 0 < 2 by decide) (-e)
  rw [Int.neg_neg, Nat.cast_ofNat, zpow_neg] at h
  rw [Nat.cast_mul, Nat.cast_mul, mul_div_mul_comm, h, div_eq_mul_inv _ ((2 : ℚ) ^ e)]

theorem le_roundDiv {num den a : Nat} (hd : 0 < den) (h : (a : ℚ) ≤ num / den) :
    a ≤ roundDiv num den := by
  have hd' : (0 : ℚ) < den := by exact_mod_cast hd
  rw [le_div_iff₀ hd'] at h
  have ha : a ≤ num / den := (Nat.le_div_iff_mul_le hd).mpr (by exact_mod_cast h)
  unfold roundDiv
  simp only
  split
  · exact ha
  · split <;> omega

theorem roundDiv_le {num den a : Nat} (hd : 0 < den) (h : (num : ℚ) / den < a) :
    roundDiv num den ≤ a := by
  have hd' : (0 : ℚ) < den := by exact_mod_cast hd
  rw [div_lt_iff₀ hd'] at h
  have ha : num / den < a := (Nat.div_lt_iff_lt_mul hd).mpr (by exact_mod_cast h)
  unfold roundDiv
  simp only
  split
  · omega
  · split <;> omega

/-- The exponent at which a fraction is rounded. -/
def roundingExponent (num den : Nat) : Int := max minExponent (floorLog2 num den - 52)

/-- The significand that a fraction is rounded to at that exponent. -/
def roundedSignificand (num den : Nat) : Nat :=
  roundDiv (num * power 2 (-roundingExponent num den)) (den * power 2 (roundingExponent num den))

section Rounded

variable {num den : Nat} (hn : 0 < num) (hd : 0 < den)
include hn hd

theorem roundedSignificand_le : roundedSignificand num den ≤ power 2 53 := by
  refine roundDiv_le (Nat.mul_pos hd (power_pos (by decide) _)) ?_
  rw [scaled_value, div_lt_iff₀ (by positivity)]
  calc (num : ℚ) / den < 2 ^ (floorLog2 num den + 1) := (floorLog2_bounds hn hd).2
    _ ≤ 2 ^ (53 + roundingExponent num den) := by
        refine zpow_le_zpow_right₀ (by norm_num) ?_
        have : floorLog2 num den - 52 ≤ roundingExponent num den := Int.le_max_right _ _
        omega
    _ = power 2 53 * 2 ^ roundingExponent num den := by
        rw [power_cast (by decide), Nat.cast_ofNat, ← zpow_add₀ (by norm_num)]

/-- Only at the least exponent can a significand be short. -/
theorem roundedSignificand_full :
    power 2 52 ≤ roundedSignificand num den ∨ roundingExponent num den = minExponent := by
  refine or_iff_not_imp_right.mpr fun hne =>
    le_roundDiv (Nat.mul_pos hd (power_pos (by decide) _)) ?_
  have he : roundingExponent num den = floorLog2 num den - 52 := by
    unfold roundingExponent at hne ⊢; omega
  rw [scaled_value, le_div_iff₀ (by positivity), he]
  calc (power 2 52 : ℚ) * 2 ^ (floorLog2 num den - 52) = 2 ^ floorLog2 num den := by
        rw [power_cast (by decide), Nat.cast_ofNat, ← zpow_add₀ (by norm_num)]
        congr 1
        omega
    _ ≤ num / den := (floorLog2_bounds hn hd).1

end Rounded

theorem nearest_eq (negative : Bool) {num : Nat} (hn : 0 < num) (den : Nat) {m : Nat} {e : Int}
    (he : roundingExponent num den = e) (hm : roundedSignificand num den = m) :
    nearest negative num den =
      if m = power 2 53 then if e + 1 > maxExponent then infinite negative
      else finite negative (power 2 52) (e + 1)
      else if e > maxExponent then infinite negative else finite negative m e := by
  subst he hm
  unfold nearest roundedSignificand roundingExponent
  rw [if_neg (by omega)]
  simp only
  split <;> rfl

theorem canonical_nearest {negative negative' : Bool} {num den m : Nat} {e : Int} (hd : 0 < den)
    (h : nearest negative num den = finite negative' m e) : Canonical m e := by
  rcases Nat.eq_zero_or_pos num with rfl | hn
  · rw [nearest, if_pos rfl] at h
    cases h
    exact canonical_zero
  · have hbits := roundedSignificand_le hn hd
    have hleast : minExponent ≤ roundingExponent num den := Int.le_max_left _ _
    rw [nearest_eq negative hn den rfl rfl] at h
    split at h
    · split at h
      · cases h
      · rename_i hg
        cases h
        exact ⟨by decide, by omega, by omega, Or.inl (Nat.le_refl _)⟩
    · rename_i hne
      split at h
      · cases h
      · rename_i hg
        cases h
        exact ⟨by omega, hleast, by omega, roundedSignificand_full hn hd⟩

/-- A number that is not finite, or one in canonical form. -/
def IsCanonical : Double → Prop
  | finite _ significand exponent => Canonical significand exponent
  | _ => True

theorem isCanonical_nearest (negative : Bool) (num : Nat) {den : Nat} (hd : 0 < den) :
    (nearest negative num den).IsCanonical := by
  cases h : nearest negative num den with
  | finite _ _ _ => exact canonical_nearest hd h
  | _ => trivial

theorem isCanonical_ofInt (n : Int) : (ofInt n).IsCanonical := isCanonical_nearest _ _ Nat.one_pos

/-! ## Numbers in reach -/

/-- The lowest number that may be read as `significand * 2 ^ exponent`. -/
def lowest (m : Nat) (e : Int) : ℚ :=
  if m = power 2 52 ∧ minExponent < e then (m - 1 / 4) * 2 ^ e else (m - 1 / 2) * 2 ^ e

/-- A positive number between the halfway points on either side of `significand * 2 ^ exponent`, or
one of these points if the significand is even. -/
structure InReach (m : Nat) (e : Int) (x : ℚ) : Prop where
  lower : lowest m e ≤ x
  upper : x ≤ (m + 1 / 2) * 2 ^ e
  inner : m % 2 = 1 → lowest m e < x ∧ x < (m + 1 / 2) * 2 ^ e

theorem four_scaled (e : Int) : (2 : ℚ) ^ (e - 2) = 2 ^ e / 4 := by
  rw [zpow_sub₀ (by norm_num)]
  norm_num

theorem value_lower {m : Nat} (hm : 0 < m) (e : Int) : (reach m e).lower.value = lowest m e := by
  have hnarrow : (m = power 2 52 && decide (e > minExponent)) =
      decide (m = power 2 52 ∧ minExponent < e) := by simp
  simp only [reach, hnarrow, Fraction.value_ofScaled, four_scaled, lowest, decide_eq_true_eq]
  split
  · rw [Nat.cast_sub (by omega)]
    push_cast
    ring
  · rw [Nat.cast_sub (by omega)]
    push_cast
    ring

theorem value_upper (m : Nat) (e : Int) : (reach m e).upper.value = (m + 1 / 2) * 2 ^ e := by
  simp only [reach, Fraction.value_ofScaled, four_scaled]
  push_cast
  ring

theorem den_ofScaled (n : Nat) (e : Int) : 0 < (Fraction.ofScaled n e).den :=
  power_pos (by decide) _

theorem contains_iff {m : Nat} (hm : 0 < m) (e : Int) {a : Fraction} (ha : 0 < a.den) :
    (reach m e).contains a = true ↔ InReach m e a.value := by
  have hl := value_lower hm e
  have hu := value_upper m e
  have hdl : 0 < (reach m e).lower.den := den_ofScaled _ _
  have hdu : 0 < (reach m e).upper.den := den_ofScaled _ _
  unfold Reach.contains
  split
  · rename_i hc
    have heven : m % 2 = 0 := by simpa [reach] using hc
    rw [Bool.and_eq_true, Fraction.le_iff hdl ha, Fraction.le_iff ha hdu, hl, hu]
    exact ⟨fun h => ⟨h.1, h.2, fun hodd => by omega⟩, fun h => ⟨h.lower, h.upper⟩⟩
  · rename_i hc
    have hodd : m % 2 = 1 := by
      have : m % 2 ≠ 0 := by simpa [reach] using hc
      omega
    rw [Bool.and_eq_true, Fraction.lt_iff hdl ha, Fraction.lt_iff ha hdu, hl, hu]
    exact ⟨fun h => ⟨h.1.le, h.2.le, fun _ => h⟩, fun h => h.inner hodd⟩

theorem half_below_lowest (m : Nat) (e : Int) : ((m : ℚ) - 1 / 2) * 2 ^ e ≤ lowest m e := by
  have hp : (0 : ℚ) < 2 ^ e := by positivity
  unfold lowest
  split
  · nlinarith
  · exact le_refl _

theorem roundingExponent_eq {num den : Nat} (hn : 0 < num) (hd : 0 < den) {e : Int}
    (he : minExponent ≤ e)
    (hl : e = minExponent ∨ (2 : ℚ) ^ (e + 52) ≤ num / den) (hu : (num : ℚ) / den < 2 ^ (e + 53)) :
    roundingExponent num den = e := by
  obtain ⟨hl', hu'⟩ := floorLog2_bounds hn hd
  have h₁ : floorLog2 num den < e + 53 :=
    (zpow_lt_zpow_iff_right₀ (by norm_num)).mp (lt_of_le_of_lt hl' hu)
  unfold roundingExponent
  rcases hl with rfl | hl
  · omega
  · have h₂ : e + 52 < floorLog2 num den + 1 :=
      (zpow_lt_zpow_iff_right₀ (by norm_num)).mp (lt_of_le_of_lt hl hu')
    omega

section Reach

variable {m : Nat} {e : Int} {num den : Nat}

theorem two_zpow_pos (k : Int) : (0 : ℚ) < 2 ^ k := by positivity

theorem two_zpow_add (e k : Int) :
    (2 : ℚ) ^ (e + k) = 2 ^ k * 2 ^ e := by rw [add_comm, zpow_add₀ (by norm_num)]

theorem two_zpow_52 : (power 2 52 : ℚ) = 2 ^ (52 : Int) := power_cast (by decide)

theorem two_zpow_53 : (power 2 53 : ℚ) = 2 ^ (53 : Int) := power_cast (by decide)

/-- Only the least significand has numbers in reach with a smaller exponent. -/
theorem InReach.least (hc : Canonical m e) (he : minExponent < e) {x : ℚ} (h : InReach m e x)
    (hx : x < 2 ^ (e + 52)) : m = power 2 52 ∧ ((power 2 52 : ℚ) - 1 / 4) * 2 ^ e ≤ x := by
  have hm : m = power 2 52 := by
    have hge : power 2 52 ≤ m := hc.full.resolve_right (by omega)
    refine Nat.le_antisymm (Nat.le_of_not_lt fun hlt => ?_) hge
    have hlt' : (power 2 52 : ℚ) + 1 ≤ m := by exact_mod_cast hlt
    have : (2 : ℚ) ^ (e + 52) < x := by
      calc (2 : ℚ) ^ (e + 52) = power 2 52 * 2 ^ e := by rw [two_zpow_add, two_zpow_52]
        _ < (m - 1 / 2) * 2 ^ e := mul_lt_mul_of_pos_right (by linarith) (two_zpow_pos e)
        _ ≤ lowest m e := half_below_lowest m e
        _ ≤ x := h.lower
    linarith
  have hl := h.lower
  rw [lowest, if_pos ⟨hm, he⟩, hm] at hl
  exact ⟨hm, hl⟩

/-- A fraction right below the least significand is rounded up to it. -/
theorem nearest_of_below (negative : Bool) (hmin : minExponent < e) (hmax : e ≤ maxExponent)
    (hn : 0 < num) (hd : 0 < den)
    (hl : ((power 2 52 : ℚ) - 1 / 4) * 2 ^ e ≤ num / den) (hu : (num : ℚ) / den < 2 ^ (e + 52)) :
    nearest negative num den = finite negative (power 2 52) e := by
  have hp := two_zpow_pos e
  have hhalf : (2 : ℚ) ^ (e - 1) = 2 ^ e / 2 := by
    rw [zpow_sub₀ (by norm_num)]
    norm_num
  have hdouble : (power 2 53 : ℚ) = 2 * power 2 52 := by
    rw [two_zpow_53, two_zpow_52]
    norm_num
  have hbig : (1 : ℚ) ≤ power 2 52 := by
    rw [two_zpow_52]
    norm_num
  have he : roundingExponent num den = e - 1 := by
    refine roundingExponent_eq hn hd (by omega) (Or.inr ?_) ?_
    · calc (2 : ℚ) ^ (e - 1 + 52) = power 2 52 / 2 * 2 ^ e := by
            rw [show e - 1 + 52 = e + 51 by ring, two_zpow_add, two_zpow_52]
            norm_num
        _ ≤ (power 2 52 - 1 / 4) * 2 ^ e := mul_le_mul_of_nonneg_right (by linarith) hp.le
        _ ≤ num / den := hl
    · rwa [show e - 1 + 53 = e + 52 by ring]
  have hr : roundedSignificand num den = power 2 53 := by
    have hval : (num : ℚ) / den / (2 ^ e / 2) = 2 * (num / den / 2 ^ e) := by field_simp
    have h₁ : (power 2 52 : ℚ) - 1 / 4 ≤ num / den / 2 ^ e := (le_div_iff₀ hp).mpr hl
    have h₂ : (num : ℚ) / den / 2 ^ e < power 2 52 := by
      rw [div_lt_iff₀ hp, two_zpow_52, ← two_zpow_add]
      exact hu
    rw [roundedSignificand, he]
    refine roundDiv_eq_of_near (Nat.mul_pos hd (power_pos (by decide) _)) ?_ ?_ fun hodd =>
      absurd hodd (by decide)
    · rw [scaled_value, hhalf, hval]
      linarith
    · rw [scaled_value, hhalf, hval]
      linarith
  rw [nearest_eq negative hn den he hr, if_pos rfl, Int.sub_add_cancel, if_neg (by omega)]

theorem nearest_of_inReach (negative : Bool) (hc : Canonical m e) (hn : 0 < num) (hd : 0 < den)
    (h : InReach m e (num / den)) : nearest negative num den = finite negative m e := by
  have hp := two_zpow_pos e
  have hm53 : (m : ℚ) ≤ power 2 53 - 1 := by
    have hlt : ((m + 1 : Nat) : ℚ) ≤ power 2 53 := by exact_mod_cast hc.bits
    push_cast at hlt
    linarith
  have hupper : (num : ℚ) / den < 2 ^ (e + 53) := by
    calc (num : ℚ) / den ≤ (m + 1 / 2) * 2 ^ e := h.upper
      _ < power 2 53 * 2 ^ e := mul_lt_mul_of_pos_right (by linarith) hp
      _ = 2 ^ (e + 53) := by rw [two_zpow_add, two_zpow_53]
  by_cases hv : minExponent < e ∧ (num : ℚ) / den < 2 ^ (e + 52)
  · obtain ⟨rfl, hl⟩ := h.least hc hv.1 hv.2
    exact nearest_of_below negative hv.1 hc.greatest hn hd hl hv.2
  · have he : roundingExponent num den = e := by
      refine roundingExponent_eq hn hd hc.least ?_ hupper
      rcases Int.lt_or_le minExponent e with hmin | hmin
      · exact Or.inr (le_of_not_gt fun hlt => hv ⟨hmin, hlt⟩)
      · exact Or.inl (Int.le_antisymm hmin hc.least)
    have hr : roundedSignificand num den = m := by
      rw [roundedSignificand, he]
      refine roundDiv_eq_of_near (Nat.mul_pos hd (power_pos (by decide) _)) ?_ ?_ fun hodd => ?_
      · rw [scaled_value, le_div_iff₀ hp]
        exact le_trans (half_below_lowest m e) h.lower
      · rw [scaled_value, div_le_iff₀ hp]
        exact h.upper
      · obtain ⟨h₁, h₂⟩ := h.inner hodd
        rw [scaled_value, lt_div_iff₀ hp, div_lt_iff₀ hp]
        exact ⟨lt_of_le_of_lt (half_below_lowest m e) h₁, h₂⟩
    rw [nearest_eq negative hn den he hr, if_neg (Nat.ne_of_lt hc.bits),
      if_neg (Int.not_lt.mpr hc.greatest)]

end Reach

end BootConfig.Double
