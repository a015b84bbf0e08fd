import BootConfig.Number.Shortest
import BootConfig.Proofs.Text.Digits

/-!
# The spelling of a finite number

A finite number is spelled as a JSON number with a fraction or an exponent, whatever its significand
and exponent are.
-/

namespace BootConfig.Double

/-- One or more digits. -/
structure IsDigits (ds : List Char) : Prop where
  digit : ∀ c ∈ ds, c.isDigit = true
  ne_nil : ds ≠ []

/-- Digits of which the first is a zero only if it stands alone. -/
structure IsWhole (ds : List Char) : Prop extends IsDigits ds where
  lead : ds.head? ≠ some '0' ∨ ds.length = 1

/-- The ways to spell a number that is no integer token: with a fraction, with an exponent, with
both. -/
inductive Spelling : List Char → Prop where
  | fraction {whole fraction : List Char} (hw : IsWhole whole) (hf : IsDigits fraction) :
      Spelling (whole ++ '.' :: fraction)
  | exponent {whole exponent : List Char} {sign : Char} (hw : IsWhole whole)
      (hs : sign = '+' ∨ sign = '-')
      (he : IsDigits exponent) : Spelling (whole ++ 'e' :: sign :: exponent)
  | both {whole fraction exponent : List Char} {sign : Char} (hw : IsWhole whole)
      (hf : IsDigits fraction) (hs : sign = '+' ∨ sign = '-') (he : IsDigits exponent) :
      Spelling (whole ++ '.' :: (fraction ++ 'e' :: sign :: exponent))

/-! ## Digits -/

theorem IsDigits.of_toDigits (n : Nat) : IsDigits (Nat.toDigits 10 n) :=
  ⟨fun _ h => Digits.isDigit_of_mem_toDigits h, Nat.toDigits_ne_nil⟩

theorem IsDigits.append_zeros {ds : List Char} (h : IsDigits ds) (n : Nat) :
    IsDigits (ds ++ List.replicate n '0') := by
  refine ⟨fun c hc => ?_, by simp [h.ne_nil]⟩
  rcases List.mem_append.mp hc with hc | hc
  · exact h.digit c hc
  · obtain ⟨_, rfl⟩ := List.mem_replicate.mp hc; rfl

theorem IsDigits.zeros_append {ds : List Char} (h : IsDigits ds) (n : Nat) :
    IsDigits (List.replicate n '0' ++ ds) := by
  refine ⟨fun c hc => ?_, by simp [h.ne_nil]⟩
  rcases List.mem_append.mp hc with hc | hc
  · obtain ⟨_, rfl⟩ := List.mem_replicate.mp hc; rfl
  · exact h.digit c hc

theorem IsDigits.take {ds : List Char} (h : IsDigits ds) {n : Nat} (hn : 0 < n) :
    IsDigits (ds.take n) := by
  refine ⟨fun c hc => h.digit c (List.mem_of_mem_take hc), ?_⟩
  have := h.ne_nil
  cases ds with
  | nil => contradiction
  | cons d ds => cases n with
    | zero => omega
    | succ n => simp

theorem IsDigits.drop {ds : List Char} (h : IsDigits ds) {n : Nat} (hn : n < ds.length) :
    IsDigits (ds.drop n) := by
  refine ⟨fun c hc => h.digit c (List.mem_of_mem_drop hc), fun hd => ?_⟩
  have := List.drop_eq_nil_iff.mp hd
  omega

theorem isDigits_zero : IsDigits ['0'] :=
  ⟨fun c hc => by rw [List.mem_singleton.mp hc]; rfl, by decide⟩

theorem isWhole_zero : IsWhole ['0'] := ⟨isDigits_zero, Or.inr rfl⟩

/-! ## The layout -/

/-- Digits with a leading zero are a zero alone, and then the power of ten leaves it in front of the
point. -/
def Laid (ds : List Char) (k : Int) : Prop := ds.head? ≠ some '0' ∨ ds = ['0'] ∧ (k ≤ 0 ∨ 16 ≤ k)

theorem isWhole_head {ds : List Char} (h : IsDigits ds) {n : Nat} (hn : 0 < n)
    (hl : ds.head? ≠ some '0' ∨ ds = ['0']) : IsWhole (ds.take n) := by
  refine ⟨h.take hn, ?_⟩
  rcases hl with hl | rfl
  · left
    rwa [List.head?_take, if_neg (by omega)]
  · right
    simp only [List.length_take, List.length_cons, List.length_nil]; omega

theorem spelling_spell {ds : List Char} {k : Int} (h : IsDigits ds) (hl : Laid ds k) :
    Spelling (spell ds k) := by
  have hlead : ds.head? ≠ some '0' ∨ ds = ['0'] := hl.imp_right (·.1)
  have hpos : 0 < ds.length := List.length_pos_iff.mpr h.ne_nil
  unfold spell
  simp only
  -- the point stands behind the digits and zeros, among the digits, or in front of zeros and the
  -- digits; or there is an exponent
  split
  · rename_i hr
    split
    · rename_i hk
      rw [List.append_assoc]
      have hz : IsWhole (ds ++ List.replicate k.toNat '0') := by
        refine ⟨h.append_zeros _, ?_⟩
        rcases hl with hl | ⟨rfl, hk'⟩
        · left
          cases ds with
          | nil => exact absurd rfl h.ne_nil
          | cons d ds => exact hl
        · right
          have : k = 0 := by simp only [List.length_cons, List.length_nil] at hr; omega
          subst this; rfl
      rw [← List.append_assoc]
      exact .fraction hz isDigits_zero
    · rename_i hk
      split
      · rename_i he
        exact .fraction (isWhole_head h (by omega) hlead) (h.drop (by omega))
      · exact .fraction isWhole_zero (h.zeros_append _)
  · have hsign : ∀ e : Int, (if e < 0 then '-' else '+') = '+' ∨
        (if e < 0 then '-' else '+') = '-' := by
      intro e; split <;> simp
    match ds, h, hpos with
    | [d], h, _ => exact .exponent ⟨h, Or.inr rfl⟩ (hsign _) (.of_toDigits _)
    | d :: d' :: ds, h, _ =>
        have hw : IsWhole [d] := ⟨⟨fun c hc => h.digit c (by simp_all), by simp⟩, Or.inr rfl⟩
        have hf : IsDigits (d' :: ds) :=
          ⟨fun c hc => h.digit c (List.mem_cons_of_mem _ hc), by simp⟩
        exact .both hw hf (hsign _) (.of_toDigits _)

/-! ## The shortest digits -/

theorem power_pos {base : Nat} (hb : 0 < base) (e : Int) : 0 < power base e := Nat.pow_pos hb

theorem Fraction.not_contains_zero {r : Reach} (h : 0 < r.lower.num) (k : Int) :
    r.contains (.ofDecimal 0 k) = false := by
  have hd : 0 < power 10 (-k) := power_pos (by decide) _
  have hm : 0 < r.lower.num * power 10 (-k) := Nat.mul_pos h hd
  unfold Reach.contains
  split
  · simp only [Fraction.le, Fraction.ofDecimal, Nat.zero_mul, decide_eq_false (Nat.not_le.mpr hm),
      Bool.false_and]
  · simp only [Fraction.lt, Fraction.ofDecimal, Nat.zero_mul, decide_eq_false (Nat.not_lt_zero _),
      Bool.false_and]

theorem candidate?_pos {r : Reach} {value : Fraction} {k : Int} {d : Nat} (h : 0 < r.lower.num)
    (hd : candidate? r value k = some d) : 0 < d := by
  have hzero := Fraction.not_contains_zero h k
  unfold candidate? at hd
  simp only at hd
  have hbelow : r.contains (.ofDecimal (value.floorAt k) k) = true → 0 < value.floorAt k := by
    intro hc
    apply Nat.pos_of_ne_zero
    intro h0
    rw [h0, hzero] at hc
    cases hc
  split at hd
  · rename_i hb _
    have := hbelow hb
    split at hd
    · cases hd; exact this
    · split at hd
      · cases hd; omega
      · cases hd; split <;> omega
  · rename_i hb _
    cases hd; exact hbelow hb
  · cases hd; omega
  · cases hd

theorem search_pos {r : Reach} (value : Fraction) (h : 0 < r.lower.num) (fuel : Nat) (k : Int) :
    0 < (search r value fuel k).1 ∨
    search r value fuel k = (value.floorAt (k - fuel), k - fuel) := by
  induction fuel generalizing k with
  | zero => right; simp [search]
  | succ fuel ih =>
      simp only [search]
      split
      · rename_i hd; exact Or.inl (candidate?_pos h hd)
      · rcases ih (k - 1) with ih | ih
        · exact Or.inl ih
        · have hk : k - 1 - (fuel : Int) = k - ((fuel + 1 : Nat) : Int) := by omega
          right; rw [ih, hk]

theorem reach_lower_pos {significand : Nat} (h : 0 < significand) (exponent : Int) :
    0 < (reach significand exponent).lower.num := by
  have hp : 0 < power 2 (exponent - 2) := power_pos (by decide) _
  simp only [reach, Fraction.ofScaled]
  apply Nat.mul_pos _ hp
  split <;> omega

/-- Where the search gives up, a number that is spelled positionally is still no less than one step
of the grid. -/
theorem floorAt_pos {significand : Nat} (h : 0 < significand) (exponent : Int) {k : Int}
    (h₁ : 0 < k) (h₂ : k < 16) (hk : k + 38 ≤ (significand.log2 + exponent + 1) * 30103 / 100000) :
    0 < (Fraction.ofScaled significand exponent).floorAt k := by
  have hbits : 128 ≤ (significand.log2 : Int) + exponent := by omega
  have hs : Nat.pow 2 significand.log2 ≤ significand := Nat.log2_self_le (by omega)
  have h15 : Nat.pow 10 k.toNat ≤ Nat.pow 10 15 := Nat.pow_le_pow_right (by decide) (by omega)
  have h128 : Nat.pow 10 15 ≤ Nat.pow 2 128 := by decide
  have hzero : power 10 (-k) = 1 := by
    simp only [power, show (-k).toNat = 0 by omega, Nat.pow_eq, Nat.pow_zero]
  have hpow : power 2 (-exponent) * Nat.pow 2 128 ≤ significand * power 2 exponent := by
    calc power 2 (-exponent) * Nat.pow 2 128
        = Nat.pow 2 ((-exponent).toNat + 128) := (Nat.pow_add 2 _ _).symm
      _ ≤ Nat.pow 2 (significand.log2 + exponent.toNat) :=
        Nat.pow_le_pow_right (by decide) (by omega)
      _ = Nat.pow 2 significand.log2 * power 2 exponent := Nat.pow_add 2 _ _
      _ ≤ significand * power 2 exponent := Nat.mul_le_mul_right _ hs
  unfold Fraction.floorAt Fraction.ofScaled
  simp only [hzero, Nat.mul_one]
  apply Nat.div_pos _ (Nat.mul_pos (power_pos (by decide) _) (power_pos (by decide) _))
  calc power 2 (-exponent) * power 10 k
      ≤ power 2 (-exponent) * Nat.pow 2 128 := Nat.mul_le_mul_left _ (Nat.le_trans h15 h128)
    _ ≤ significand * power 2 exponent := hpow

theorem laid_shortest {significand : Nat} (h : 0 < significand) (exponent : Int) :
    Laid (Nat.toDigits 10 (shortest significand exponent).1) (shortest significand exponent).2 := by
  by_cases hd : 0 < (shortest significand exponent).1
  · exact Or.inl (Digits.head?_toDigits_ne_zero hd)
  · right
    rcases search_pos (.ofScaled significand exponent) (reach_lower_pos h exponent) 40
      ((significand.log2 + exponent + 1) * 30103 / 100000 + 2) with hp | hs
    · exact absurd hp hd
    · change shortest significand exponent = _ at hs
      have h0 : (shortest significand exponent).1 = 0 := by omega
      refine ⟨by rw [h0]; rfl, ?_⟩
      rw [hs] at h0 ⊢
      by_cases hk : 0 < (significand.log2 + exponent + 1) * 30103 / 100000 +
          2 - ((40 : Nat) : Int) ∧
          (significand.log2 + exponent + 1) * 30103 / 100000 + 2 - ((40 : Nat) : Int) < 16
      · have := floorAt_pos h exponent hk.1 hk.2 (by omega)
        simp only at h0
        omega
      · simp only; omega

/-- The characters of a finite number behind its sign. -/
def unsignedText (significand : Nat) (exponent : Int) : List Char :=
  if significand = 0 then ['0', '.', '0']
  else spell (Nat.toDigits 10 (shortest significand exponent).1) (shortest significand exponent).2

theorem toList_text (negative : Bool) (significand : Nat) (exponent : Int) :
    (text (.finite negative significand exponent)).toList =
      if negative then '-' :: unsignedText significand exponent
      else unsignedText significand exponent := by
  simp only [text, String.toList_ofList]
  rfl

theorem spelling_unsignedText (significand : Nat) (exponent : Int) :
    Spelling (unsignedText significand exponent) := by
  unfold unsignedText
  split
  · exact .fraction isWhole_zero isDigits_zero
  · rename_i h
    exact spelling_spell (.of_toDigits _) (laid_shortest (by omega) _)

end BootConfig.Double
