import BootConfig.Proofs.Number.Nearest

/-!
# The shortest digits are in reach

The search for the shortest decimal ends at one that is rounded to the number: the finest grid that
it looks at is finer than the distance to the nearest halfway point.
-/

namespace BootConfig.Double

/-! ## Powers of ten and two -/

theorem ten_zpow_le {s p : Int} (h : if 0 ≤ s then 10 * s ≤ 3 * p else 33 * s ≤ 10 * p) :
    (10 : ℚ) ^ s ≤ 2 ^ p := by
  split at h
  · rename_i hs
    refine le_of_pow_le_pow_left₀ (n := 3) (by norm_num) (two_zpow_pos p).le ?_
    calc ((10 : ℚ) ^ s) ^ 3 =
      (10 ^ 3) ^ s := by rw [← zpow_natCast, ← zpow_mul, mul_comm, zpow_mul]; rfl
      _ ≤ (2 ^ 10) ^ s := zpow_le_zpow_left₀ hs (by norm_num) (by norm_num)
      _ = 2 ^ (10 * s) := by rw [zpow_mul]; rfl
      _ ≤ 2 ^ (3 * p) := zpow_le_zpow_right₀ (by norm_num) h
      _ = (2 ^ p) ^ 3 := by rw [mul_comm, zpow_mul]; rfl
  · rename_i hs
    refine le_of_pow_le_pow_left₀ (n := 10) (by norm_num) (two_zpow_pos p).le ?_
    obtain ⟨n, rfl⟩ : ∃ n : Nat, s = -n := ⟨(-s).toNat, by omega⟩
    have hpow : (2 : ℚ) ^ (33 * (n : Int)) ≤ 10 ^ (10 * (n : Int)) := by
      rw [zpow_mul, zpow_mul]
      exact zpow_le_zpow_left₀ (by omega) (by norm_num) (by norm_num)
    calc ((10 : ℚ) ^ (-(n : Int))) ^ 10 = (10 ^ (10 * (n : Int)))⁻¹ := by
          rw [← zpow_neg, ← zpow_natCast, ← zpow_mul]
          congr 1
          push_cast
          ring
      _ ≤ (2 ^ (33 * (n : Int)))⁻¹ := inv_anti₀ (two_zpow_pos _) hpow
      _ = 2 ^ (33 * -(n : Int)) := by rw [← zpow_neg, mul_neg]
      _ ≤ 2 ^ (10 * p) := zpow_le_zpow_right₀ (by norm_num) h
      _ = (2 ^ p) ^ 10 := by rw [mul_comm, zpow_mul]; rfl

theorem ten_zpow_pos (k : Int) : (0 : ℚ) < 10 ^ k := by positivity

/-! ## Candidates -/

section Candidates

variable {m : Nat} {e k : Int}

theorem floorAt_bounds {a : Fraction} (ha : 0 < a.den) (k : Int) :
    (a.floorAt k : ℚ) * 10 ^ k ≤ a.value ∧ a.value < (a.floorAt k + 1) * 10 ^ k := by
  have hp := ten_zpow_pos k
  have hden : (0 : ℚ) < ((a.den * power 10 k : Nat) : ℚ) := by
    exact_mod_cast Nat.mul_pos ha (power_pos (by decide) k)
  have hden' : 0 < a.den * power 10 k := Nat.mul_pos ha (power_pos (by decide) k)
  have hvalue : ((a.num * power 10 (-k) : Nat) : ℚ) / ((a.den * power 10 k : Nat) : ℚ) =
      a.value / 10 ^ k := by
    have h := power_value (show 0 < 10 by decide) (-k)
    rw [Int.neg_neg, Nat.cast_ofNat, zpow_neg] at h
    rw [Nat.cast_mul, Nat.cast_mul, mul_div_mul_comm, h, Fraction.value,
      div_eq_mul_inv _ ((10 : ℚ) ^ k)]
  have hl : (a.floorAt k : ℚ) ≤ a.value / 10 ^ k := by
    rw [← hvalue, le_div_iff₀ hden]
    exact_mod_cast Nat.div_mul_le_self _ _
  have hu : a.value / 10 ^ k < a.floorAt k + 1 := by
    rw [← hvalue, div_lt_iff₀ hden]
    exact_mod_cast Nat.lt_mul_of_div_lt (Nat.lt_succ_self _) hden'
  exact ⟨(le_div_iff₀ hp).mp hl, (div_lt_iff₀ hp).mp hu⟩

theorem candidate?_contains {r : Reach} {value : Fraction} {d : Nat}
    (h : candidate? r value k = some d) : r.contains (.ofDecimal d k) = true := by
  unfold candidate? at h
  simp only at h
  split at h
  · rename_i hb ha
    split at h
    · cases h; exact hb
    · split at h
      · cases h; exact ha
      · cases h
        split
        · exact hb
        · exact ha
  · rename_i hb _
    cases h; exact hb
  · rename_i _ ha
    cases h; exact ha
  · cases h

theorem candidate?_of_below {r : Reach} {value : Fraction}
    (h : r.contains (.ofDecimal (value.floorAt k) k) = true) :
    ∃ d, candidate? r value k = some d := by
  unfold candidate?
  simp only [h]
  split
  · split
    · exact ⟨_, rfl⟩
    · split <;> exact ⟨_, rfl⟩
  · exact ⟨_, rfl⟩
  · simp_all
  · simp_all

theorem quarter_below {x : ℚ} (hx : x ≤ m * 2 ^ e) (h : ((m : ℚ) - 1 / 4) * 2 ^ e < x) :
    InReach m e x := by
  have hp := two_zpow_pos e
  have hlow : lowest m e ≤ (m - 1 / 4) * 2 ^ e := by
    unfold lowest
    split
    · exact le_refl _
    · nlinarith
  have hupper : x < (m + 1 / 2) * 2 ^ e := by nlinarith
  exact ⟨le_of_lt (lt_of_le_of_lt hlow h), hupper.le, fun _ => ⟨lt_of_le_of_lt hlow h, hupper⟩⟩

/-- A grid finer than a quarter of a step has a candidate. -/
theorem exists_candidate (hm : 0 < m) (hk : (10 : ℚ) ^ k ≤ 2 ^ (e - 2)) :
    ∃ d, candidate? (reach m e) (.ofScaled m e) k = some d := by
  obtain ⟨hl, hu⟩ := floorAt_bounds (den_ofScaled m e) k
  rw [Fraction.value_ofScaled] at hl hu
  rw [four_scaled] at hk
  have hb : InReach m e ((Fraction.ofDecimal ((Fraction.ofScaled m e).floorAt k) k).value) := by
    rw [Fraction.value_ofDecimal]
    refine quarter_below hl ?_
    linarith
  exact candidate?_of_below ((contains_iff hm e (power_pos (by decide) _)).mpr hb)

theorem search_some {r : Reach} {value : Fraction} : (fuel : Nat) → (k : Int) → (n : Nat) →
    n < fuel → (∃ d, candidate? r value (k - n) = some d) →
    candidate? r value (search r value fuel k).2 = some (search r value fuel k).1
  | 0, _, _, hn, _ => absurd hn (Nat.not_lt_zero _)
  | fuel + 1, k, n, hn, h => by
      rw [search]
      cases hc : candidate? r value k with
      | some d => exact hc
      | none =>
          cases n with
          | zero =>
              obtain ⟨d, hd⟩ := h
              rw [Nat.cast_zero, Int.sub_zero, hc] at hd
              cases hd
          | succ n =>
              refine search_some fuel (k - 1) n (by omega) ?_
              rwa [Int.sub_sub, Int.add_comm 1, ← Nat.cast_succ]

theorem inReach_shortest (hc : Canonical m e) (hm : 0 < m) :
    InReach m e ((shortest m e).1 * 10 ^ (shortest m e).2) := by
  have hlog : m.log2 ≤ 52 := by
    have h := hc.bits
    have : m.log2 < 53 := (Nat.log2_lt (by omega)).mpr h
    omega
  have hleast : -1074 ≤ e := hc.least
  have hgreatest : e ≤ 971 := hc.greatest
  have hfine : (10 : ℚ) ^ (((m.log2 : Int) + e + 1) * 30103 / 100000 + 2 - ((39 : Nat) : Int)) ≤
      2 ^ (e - 2) := by
    refine ten_zpow_le ?_
    split <;> omega
  have hs :=
    search_some 40 (((m.log2 : Int) + e + 1) * 30103 / 100000 + 2) 39
      (by omega) (exists_candidate hm hfine)
  have h := (contains_iff hm e (power_pos (by decide) _)).mp (candidate?_contains hs)
  rw [Fraction.value_ofDecimal] at h
  exact h

end Candidates

end BootConfig.Double
