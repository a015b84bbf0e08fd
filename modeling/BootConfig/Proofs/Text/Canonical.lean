import BootConfig.Proofs.Text.Percent
import BootConfig.Text.DataUrl

/-!
# One spelling for each text

Percent coding uses the characters `A-Z a-z 0-9 - . _` and escapes of two upper-case hexadecimal
digits. Of all spellings of some bytes it takes the one whose escapes are needed, so that a text and
its data URL determine each other.
-/

namespace BootConfig

namespace Percent

/-! ## Spellings -/

/-- The characters that stand for themselves. -/
def IsPlain (c : Char) : Prop :=
  'A' ≤ c ∧ c ≤ 'Z' ∨ 'a' ≤ c ∧ c ≤ 'z' ∨ '0' ≤ c ∧ c ≤ '9' ∨ c = '-' ∨ c = '.' ∨ c = '_'

instance (c : Char) : Decidable (IsPlain c) := inferInstanceAs (Decidable (_ ∨ _))

/-- The digits of an escape, each at its value. -/
def hexDigits : List Char := "0123456789ABCDEF".toList

/-- A text of plain characters and escapes, and the bytes that it spells. Only bytes that satisfy
`escaped` are escaped. -/
inductive Spells (escaped : UInt8 → Prop) : List Char → List UInt8 → Prop where
  | nil : Spells escaped [] []
  | plain {c : Char} {cs : List Char} {bytes : List UInt8} (hc : IsPlain c)
      (h : Spells escaped cs bytes) : Spells escaped (c :: cs) (UInt8.ofNat c.toNat :: bytes)
  | escape {high low : Char} {m n : Nat} {cs : List Char} {bytes : List UInt8}
      (hm : hexDigits[m]? = some high) (hn : hexDigits[n]? = some low)
      (he : escaped (UInt8.ofNat (16 * m + n))) (h : Spells escaped cs bytes) :
      Spells escaped ('%' :: high :: low :: cs) (UInt8.ofNat (16 * m + n) :: bytes)

/-- The bytes that a text decodes to. -/
abbrev Decodes : List Char → List UInt8 → Prop := Spells fun _ => True

/-- The bytes that a text decodes to, with no escape for a plain character. -/
abbrev Canonical : List Char → List UInt8 → Prop :=
  Spells fun b => ∀ c, IsPlain c → UInt8.ofNat c.toNat ≠ b

variable {escaped escaped' : UInt8 → Prop} {cs : List Char} {bytes bytes' : List UInt8}

theorem Spells.imp (he : ∀ b, escaped b → escaped' b) (h : Spells escaped cs bytes) :
    Spells escaped' cs bytes := by
  induction h with
  | nil => exact .nil
  | plain hc _ ih => exact .plain hc ih
  | escape hm hn hb _ ih => exact .escape hm hn (he _ hb) ih

/-! ## Single bytes -/

theorem IsPlain.toNat_lt {c : Char} (h : IsPlain c) : c.toNat < 128 := by
  have hle : ∀ d : Char, c ≤ d → c.toNat ≤ d.toNat := fun d hd => UInt32.le_iff_toNat_le.mp hd
  rcases h with ⟨_, h⟩ | ⟨_, h⟩ | ⟨_, h⟩ | rfl | rfl | rfl
  · exact Nat.lt_of_le_of_lt (hle _ h) (by decide)
  · exact Nat.lt_of_le_of_lt (hle _ h) (by decide)
  · exact Nat.lt_of_le_of_lt (hle _ h) (by decide)
  all_goals decide

theorem isUnreserved_eq : ∀ b : UInt8, isUnreserved b = decide (IsPlain (Char.ofNat b.toNat)) :=
  forall_byte (by decide +kernel)

theorem ofNat_char : ∀ b : UInt8, UInt8.ofNat (Char.ofNat b.toNat).toNat = b :=
  forall_byte (by decide +kernel)

theorem IsPlain.char_ofNat {c : Char} (h : IsPlain c) :
    Char.ofNat (UInt8.ofNat c.toNat).toNat = c := by
  have hc : c.toNat < UInt8.size := Nat.lt_trans h.toNat_lt (by decide)
  rw [UInt8.toNat_ofNat_of_lt' hc, Char.ofNat_toNat]

/-- No plain character is written for the byte just if the byte is escaped. -/
theorem isUnreserved_eq_false {b : UInt8} :
    isUnreserved b = false ↔ ∀ c, IsPlain c → UInt8.ofNat c.toNat ≠ b := by
  rw [isUnreserved_eq, decide_eq_false_iff_not]
  constructor
  · rintro hb c hc rfl
    exact hb (hc.char_ofNat.symm ▸ hc)
  · exact fun h hb => h _ hb (ofNat_char b)

theorem getElem?_hexDigits : ∀ d < 16, hexDigits[d]? = some (Digits.upperHex d) := by decide

theorem encodeByte_plain {c : Char} (h : IsPlain c) : encodeByte (UInt8.ofNat c.toNat) = [c] := by
  rw [encodeByte, isUnreserved_eq, h.char_ofNat, if_pos (decide_eq_true h)]

theorem encodeByte_escape {high low : Char} {m n : Nat} (hm : hexDigits[m]? = some high)
    (hn : hexDigits[n]? = some low) (hu : isUnreserved (UInt8.ofNat (16 * m + n)) = false) :
      encodeByte (UInt8.ofNat (16 * m + n)) = ['%', high, low] := by
  have hm16 : m < 16 := (List.getElem?_eq_some_iff.mp hm).1
  have hn16 : n < 16 := (List.getElem?_eq_some_iff.mp hn).1
  have hb : (UInt8.ofNat (16 * m + n)).toNat = 16 * m + n :=
    UInt8.toNat_ofNat_of_lt' (by simp only [UInt8.size]; omega)
  rw [getElem?_hexDigits m hm16] at hm
  rw [getElem?_hexDigits n hn16] at hn
  rw [encodeByte, hu, if_neg Bool.false_ne_true, hb, show (16 * m + n) / 16 = m by omega,
    show (16 * m + n) % 16 = n by omega,
    Option.some.inj hm, Option.some.inj hn]

theorem escape_inj {high low : Char} {m n m' n' : Nat} (hm : hexDigits[m]? = some high)
    (hn : hexDigits[n]? = some low)
    (hm' : hexDigits[m']? = some high) (hn' : hexDigits[n']? = some low) : m = m' ∧ n = n' := by
  have hnodup : hexDigits.Nodup := by decide
  exact ⟨(List.getElem?_inj (List.getElem?_eq_some_iff.mp hm).1 hnodup).mp (hm.trans hm'.symm),
    (List.getElem?_inj (List.getElem?_eq_some_iff.mp hn).1 hnodup).mp (hn.trans hn'.symm)⟩

/-! ## All bytes -/

theorem Decodes.unique (h : Decodes cs bytes) (h' : Decodes cs bytes') : bytes = bytes' := by
  have hpercent : ¬IsPlain '%' := by decide
  induction h generalizing bytes' with
  | nil => cases h'; rfl
  | plain hc _ ih =>
      cases h' with
      | plain _ h' => rw [ih h']
      | escape => exact absurd hc hpercent
  | escape hm hn _ _ ih =>
      cases h' with
      | plain hc _ => exact absurd hc hpercent
      | escape hm' hn' _ h' =>
          obtain ⟨rfl, rfl⟩ := escape_inj hm hn hm' hn'
          rw [ih h']

theorem canonical_encode (bytes : List UInt8) : Canonical (encode bytes) bytes := by
  induction bytes with
  | nil => exact .nil
  | cons b bytes ih =>
      rw [encode, List.flatMap_cons, ← encode]
      cases hb : isUnreserved b with
      | true =>
          have hc : IsPlain (Char.ofNat b.toNat) := by simpa [isUnreserved_eq] using hb
          have h := Spells.plain hc ih
          rw [ofNat_char] at h
          rwa [encodeByte, if_pos hb]
      | false =>
          have hlt := b.toNat_lt
          have h := isUnreserved_eq_false.mp hb
          have hsum : UInt8.ofNat (16 * (b.toNat / 16) + b.toNat % 16) = b := by
            rw [Nat.div_add_mod, UInt8.ofNat_toNat]
          have hs :=
            Spells.escape (getElem?_hexDigits (b.toNat / 16) (by omega))
              (getElem?_hexDigits (b.toNat % 16) (by omega))
            (hsum.symm ▸ h) ih
          rw [hsum] at hs
          rwa [encodeByte, if_neg (by simp [hb])]

/-- Coding takes the one spelling whose escapes are all needed. -/
theorem canonical_iff : Canonical cs bytes ↔ cs = encode bytes := by
  refine ⟨fun h => ?_, fun h => h ▸ canonical_encode bytes⟩
  induction h with
  | nil => rfl
  | plain hc _ ih => rw [encode, List.flatMap_cons, ← encode, encodeByte_plain hc, ih]; rfl
  | escape hm hn he _ ih =>
      rw [encode, List.flatMap_cons, ← encode,
        encodeByte_escape hm hn (isUnreserved_eq_false.mpr he), ih]; rfl

theorem decodes_iff : Decodes (encode bytes) bytes' ↔ bytes' = bytes := by
  have h : Decodes (encode bytes) bytes := (canonical_encode bytes).imp fun _ _ => trivial
  exact ⟨fun h' => h'.unique h, fun he => he ▸ h⟩

end Percent

/-! ## Data URLs -/

namespace DataUrl

theorem toList_payload (text : String) :
    (payload text).toList = Percent.encode text.toUTF8.data.toList := by
  rw [payload, String.toList_ofList, ← Utf8.toList_toUTF8, String.ofList_toList]

theorem canonical_iff {text spelling : String} :
    Percent.Canonical spelling.toList text.toUTF8.data.toList ↔ payload text = spelling := by
  rw [Percent.canonical_iff, ← toList_payload, String.toList_inj, eq_comm]

theorem decodes_iff {text : String} {bytes : List UInt8} :
    Percent.Decodes (payload text).toList bytes ↔ bytes = text.toUTF8.data.toList := by
  rw [toList_payload, Percent.decodes_iff]

theorem payload_injective : Function.Injective payload := by
  intro text text' h
  have hbytes : text.toUTF8.data.toList = text'.toUTF8.data.toList :=
    decodes_iff.mp (h ▸ decodes_iff.mpr rfl)
  exact String.toByteArray_inj.mp (ByteArray.ext (Array.toList_inj.mp hbytes))

/-- The payload of a text is of plain characters and escapes and decodes to the bytes of the text,
and it is the one such spelling of them with no escape for a plain character. So no two texts have
one URL, and a URL is that of a text just if such a spelling of a text stands behind the scheme. -/
theorem ofText_canonical :
    (∀ text bytes, Percent.Decodes (payload text).toList bytes ↔ bytes = text.toUTF8.data.toList) ∧
    (∀ text spelling : String, Percent.Canonical spelling.toList text.toUTF8.data.toList ↔
    payload text = spelling) ∧ Function.Injective ofText ∧
    ∀ url, (∃ text, ofText text = url) ↔
      ∃ text spelling : String, url = "data:," ++ spelling ∧
        Percent.Canonical spelling.toList text.toUTF8.data.toList := by
  refine ⟨fun _ _ => decodes_iff, fun _ _ => canonical_iff, fun text text' h =>
    ?_, fun url => ⟨?_, ?_⟩⟩
  · exact payload_injective ((String.append_right_inj scheme).mp h)
  · rintro ⟨text, rfl⟩
    exact ⟨text, payload text, rfl, canonical_iff.mpr rfl⟩
  · rintro ⟨text, spelling, rfl, h⟩
    exact ⟨text, congrArg (scheme ++ ·) (canonical_iff.mp h)⟩

example : ofText "~/é%" = "data:,%7E%2F%C3%A9%25" := by decide +kernel

end DataUrl

end BootConfig
