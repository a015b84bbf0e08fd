import BootConfig.Proofs.Number.ReadBack
import BootConfig.Proofs.Yaml.Resolved

/-!
# What written floats mean

The text of a finite number in canonical form is no word and no integer, and is read as the number.
-/

namespace BootConfig.Yaml

open Double (Canonical IsDigits Spelling unsignedText)
open Json (startsNumber)

/-- The characters of written floats behind a sign. -/
def isFloatChar (c : Char) : Bool := c.isDigit || c == '.' || c == 'e' || c == '+' || c == '-'

/-- The characters of a spelled number, one of which is no digit. -/
theorem spelling_chars {cs : List Char} (h : Spelling cs) :
    (∀ c ∈ cs, isFloatChar c = true) ∧ ∃ c ∈ cs, c = '.' ∨ c = 'e' := by
  have hd : ∀ {ds}, IsDigits ds → ∀ c ∈ ds, isFloatChar c = true :=
    fun h c hm => by simp [isFloatChar, h.digit c hm]
  have he : ∀ {sign ds}, sign = '+' ∨ sign = '-' → IsDigits ds →
      ∀ c ∈ 'e' :: sign :: ds, isFloatChar c = true :=
    fun hs h =>
      List.forall_mem_cons.mpr ⟨rfl,
      List.forall_mem_cons.mpr ⟨by rcases hs with rfl | rfl <;> rfl, hd h⟩⟩
  cases h with
  | fraction hw hf =>
      exact ⟨List.forall_mem_append.mpr ⟨hd hw.toIsDigits, List.forall_mem_cons.mpr ⟨rfl, hd hf⟩⟩,
        '.', by simp, Or.inl rfl⟩
  | exponent hw hs hx =>
      exact ⟨List.forall_mem_append.mpr ⟨hd hw.toIsDigits, he hs hx⟩, 'e', by simp, Or.inr rfl⟩
  | both hw hf hs hx =>
      refine ⟨List.forall_mem_append.mpr ⟨hd hw.toIsDigits, List.forall_mem_cons.mpr ⟨rfl, ?_⟩⟩,
        '.', by simp, Or.inl rfl⟩
      exact List.forall_mem_append.mpr ⟨hd hf, he hs hx⟩

theorem base_float {cs : List Char} (h : ∀ c ∈ cs, isFloatChar c = true) :
    Resolve.base cs = (10, cs) := by
  unfold Resolve.base
  split
  · exact absurd (h 'x' (by simp)) (by decide)
  · exact absurd (h 'o' (by simp)) (by decide)
  · exact absurd (h 'b' (by simp)) (by decide)
  · rfl

theorem number?_float {cs : List Char} (h : ∃ c ∈ cs, c = '.' ∨ c = 'e') :
    Digits.number? 10 cs = none := by
  obtain ⟨c, hm, hc⟩ := h
  have hall : cs.all (Digits.isDigit 10) = false := by
    rw [List.all_eq_false]
    exact ⟨c, hm, by rcases hc with rfl | rfl <;> decide⟩
  simp [Digits.number?, hall]

section Texts

variable {text cs : List Char} {negative : Bool}

theorem int?_float (hs : Digits.sign text = (negative, cs)) (h : Spelling cs) :
    Resolve.int? text = none := by
  obtain ⟨hc, hn⟩ := spelling_chars h
  have hi : Resolve.integer? text = none := by
    simp only [Resolve.integer?, hs, base_float hc, number?_float hn, Option.map_none]
    split <;> rfl
  rw [Resolve.int?, hi]
  rfl

theorem isZeroLed_float (hs : Digits.sign text = (negative, cs)) (h : Spelling cs) :
    Resolve.isZeroLed text = false := by
  obtain ⟨_, c, hm, hc⟩ := spelling_chars h
  unfold Resolve.isZeroLed
  rw [hs]
  simp only
  split
  · rename_i d ds
    rcases List.mem_cons.mp hm with rfl | hm
    · rcases hc with hc | hc <;> cases hc
    · rw [List.all_eq_false]
      exact ⟨c, hm, by rcases hc with rfl | rfl <;> decide⟩
  · rfl

/-- A text of such characters is no name of an infinity or of what is no number. -/
theorem float?_chars {s : String} (h : ∀ c ∈ s.toList, isFloatChar c = true) {x : Double}
    (hx : (Decimal.read? s.toList).map Decimal.toDouble = some x) (hf : x.isFinite = true) :
      Resolve.float? s = some x := by
  have hne : ∀ w ∈ [".inf", ".Inf", ".INF", "+.inf", "+.Inf", "+.INF", "-.inf", "-.Inf", "-.INF",
      ".nan", ".NaN", ".NAN"], s ≠ w := by
    rintro w hw rfl
    have hall : [".inf", ".Inf", ".INF", "+.inf", "+.Inf", "+.INF", "-.inf", "-.Inf", "-.INF",
        ".nan", ".NaN", ".NAN"].all (fun w => !w.toList.all isFloatChar) = true := by decide
    have := List.all_eq_true.mp hall _ hw
    rw [List.all_eq_true.mpr h] at this
    cases this
  simp only [List.forall_mem_cons] at hne
  obtain ⟨h₁, h₂, h₃, h₄, h₅, h₆, h₇, h₈, h₉, h₁₀, h₁₁, h₁₂, _⟩ := hne
  simp [Resolve.float?, h₁, h₂, h₃, h₄, h₅, h₆, h₇, h₈, h₉, h₁₀, h₁₁, h₁₂, hx, hf]

end Texts

theorem sign_spelling {cs : List Char} (h : Spelling cs) : Digits.sign cs = (false, cs) := by
  cases h with
  | fraction hw _ => exact Decimal.sign_unsigned hw.toIsDigits _
  | exponent hw _ _ => exact Decimal.sign_unsigned hw.toIsDigits _
  | both hw _ _ _ => exact Decimal.sign_unsigned hw.toIsDigits _

theorem sign_text (negative : Bool) (m : Nat) (e : Int) :
    Digits.sign (Double.finite negative m e).text.toList = (negative, unsignedText m e) := by
  rw [Double.toList_text]
  cases negative with
  | true => rfl
  | false => exact sign_spelling (Double.spelling_unsignedText m e)

theorem plain?_float {negative : Bool} {m : Nat} {e : Int} (hc : Canonical m e) :
    Resolve.plain? (Double.finite negative m e).text = some (.float (.finite negative m e)) := by
  have hs := sign_text negative m e
  have hspell := Double.spelling_unsignedText m e
  have hchars : ∀ c ∈ (Double.finite negative m e).text.toList, isFloatChar c = true := by
    rw [Double.toList_text]
    split
    · exact List.forall_mem_cons.mpr ⟨rfl, (spelling_chars hspell).1⟩
    · exact (spelling_chars hspell).1
  obtain ⟨c, cs, hn, hstart⟩ := Json.startsNumber_text (x := .finite negative m e) rfl []
  rw [List.append_nil] at hn
  rw [plain?_number hn (Or.inl hstart), int?_float hs hspell, isZeroLed_float hs hspell,
    float?_chars hchars (Decimal.read?_unsignedText hc hs) rfl]
  rfl

end BootConfig.Yaml
