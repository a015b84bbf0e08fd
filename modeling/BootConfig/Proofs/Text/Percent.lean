import BootConfig.Text.Percent

/-!
# Percent coding read back

The coding of any bytes is ASCII text, and decoding gives the bytes.
-/

namespace BootConfig.Percent

/-! ## One byte -/

theorem forall_byte {p : UInt8 → Prop} (h : ∀ n < 256, p (UInt8.ofNat n)) (b : UInt8) : p b := by
  have := h b.toNat b.toNat_lt
  rwa [UInt8.ofNat_toNat] at this

/-- A byte is written as itself, which is no percent sign, or as an escape of two digits. -/
inductive Coded (b : UInt8) : List Char → Prop where
  | itself {c : Char} (hu : isUnreserved b = true) (hc : c ≠ '%') (hn : c.toNat < 128)
      (hb : UInt8.ofNat c.toNat = b) : Coded b [c]
  | escape {high low : Char} {m n : Nat} (hu : isUnreserved b = false) (hm : digit? high = some m)
      (hn : digit? low = some n) (hb : UInt8.ofNat (16 * m + n) = b) (ha : high.toNat < 128 ∧
        low.toNat < 128) :
      Coded b ['%', high, low]

theorem digit?_upperHex :
    ∀ d < 16, digit? (Digits.upperHex d) = some d ∧ (Digits.upperHex d).toNat < 128 := by decide

theorem coded (b : UInt8) : Coded b (encodeByte b) := by
  unfold encodeByte
  split
  · rename_i hu
    have hall : ∀ b : UInt8, isUnreserved b = true →
        Char.ofNat b.toNat ≠ '%' ∧ (Char.ofNat b.toNat).toNat < 128 ∧
        UInt8.ofNat (Char.ofNat b.toNat).toNat = b :=
      forall_byte (by decide +kernel)
    obtain ⟨hc, hn, hb⟩ := hall b hu
    exact .itself hu hc hn hb
  · rename_i hu
    have hb := b.toNat_lt
    obtain ⟨hm, ham⟩ := digit?_upperHex (b.toNat / 16) (by omega)
    obtain ⟨hn, han⟩ := digit?_upperHex (b.toNat % 16) (by omega)
    refine .escape (by simpa using hu) hm hn ?_ ⟨ham, han⟩
    rw [show 16 * (b.toNat / 16) + b.toNat % 16 = b.toNat by omega, UInt8.ofNat_toNat]

theorem decode?_coded {b : UInt8} {w : List Char} (h : Coded b w) (rest : List Char) :
    decode? (w ++ rest) = (decode? rest).map (b :: ·) := by
  cases h with
  | itself hu hc hn hb =>
      rw [List.singleton_append, decode?.eq_3 _ _ (by rintro _ _ _ rfl; exact absurd rfl hc)]
      simp only [hb, hu, hn, decide_true, Bool.and_self, if_true]
  | escape hu hm hn hb ha =>
      simp only [List.cons_append, List.nil_append, decode?, hm, hn, hb, hu, Option.bind_eq_bind,
        Option.bind_some, Bool.false_eq_true, if_false]

/-! ## All bytes -/

theorem decode?_encode (bytes : List UInt8) : decode? (encode bytes) = some bytes := by
  induction bytes with
  | nil => rfl
  | cons b bs ih =>
      rw [encode, List.flatMap_cons, decode?_coded (coded b)]
      rw [encode] at ih
      rw [ih]
      rfl

theorem ascii_encode (bytes : List UInt8) : ∀ c ∈ encode bytes, c.toNat < 128 := by
  intro c hc
  obtain ⟨b, _, hb⟩ := List.mem_flatMap.mp hc
  cases hw : encodeByte b with
  | nil => rw [hw] at hb; cases hb
  | cons d ds =>
      have h := coded b
      rw [hw] at h hb
      cases h with
      | itself _ _ hn _ => simp only [List.mem_singleton] at hb; subst hb; exact hn
      | escape _ _ _ _ ha =>
          simp only [List.mem_cons, List.not_mem_nil, or_false] at hb
          rcases hb with rfl | rfl | rfl
          · decide
          · exact ha.1
          · exact ha.2

end BootConfig.Percent
