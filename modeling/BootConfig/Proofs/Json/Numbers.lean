import BootConfig.Json.Reader
import BootConfig.Proofs.Number.Spelling

/-!
# Numbers read back

An integer of the output is read as that integer, a finite float as the token that spells it.
-/

namespace BootConfig.Json

open Double (IsDigits IsWhole Spelling)

/-- What stands behind a value inside the output: a comma or a line break. -/
inductive Delimited : List Char → Prop where
  | comma (cs : List Char) : Delimited (',' :: cs)
  | newline (cs : List Char) : Delimited ('\n' :: cs)

/-- What no digit stands in front of. -/
def NoDigit (cs : List Char) : Prop := ∀ c ∈ cs.head?, c.isDigit = false

theorem Delimited.noDigit {cs : List Char} (h : Delimited cs) : NoDigit cs := by
  cases h <;> (intro c hc; cases hc; rfl)

theorem noDigit_cons {c : Char} (h : c.isDigit = false) (cs : List Char) : NoDigit (c :: cs) := by
  intro d hd; cases hd; exact h

/-! ## Parts of a number -/

theorem readDigits?_append {ds cs : List Char} (h : IsDigits ds) (hc : NoDigit cs) :
    readDigits? (ds ++ cs) = some (ds, cs) := by
  have hnil : cs.takeWhile Char.isDigit = [] ∧ cs.dropWhile Char.isDigit = cs := by
    cases cs with
    | nil => exact ⟨rfl, rfl⟩
    | cons c cs => simp [hc c rfl]
  have hemp : ds.isEmpty = false := by simp [h.ne_nil]
  simp only [readDigits?, List.takeWhile_append_of_pos h.digit,
    List.dropWhile_append_of_pos h.digit, hnil.1, hnil.2,
    List.append_nil, hemp, Bool.false_eq_true, if_false]

theorem readWhole?_append {ds cs : List Char} (h : IsWhole ds) (hc : NoDigit cs) :
    readWhole? (ds ++ cs) = some (ds, cs) := by
  rw [readWhole?, readDigits?_append h.toIsDigits hc]
  rcases h.lead with hl | hl <;> simp [Option.filter, hl]

theorem readFraction?_point {ds cs : List Char} (h : IsDigits ds) (hc : NoDigit cs) :
    readFraction? ('.' :: (ds ++ cs)) = some ('.' :: ds, cs) := by
  rw [readFraction?, readDigits?_append h hc]
  rfl

theorem readFraction?_none {c : Char} (h : c ≠ '.') (cs : List Char) :
    readFraction? (c :: cs) = some ([], c :: cs) := by
  unfold readFraction?
  split
  · rename_i heq; simp only [List.cons.injEq] at heq; exact absurd heq.1 h
  · rfl

theorem readExponent?_letter {sign : Char} {ds cs : List Char} (hs : sign = '+' ∨ sign = '-')
    (h : IsDigits ds) (hc : NoDigit cs) :
      readExponent? ('e' :: sign :: (ds ++ cs)) = some ('e' :: sign :: ds, cs) := by
  rcases hs with rfl | rfl <;> simp [readExponent?, readSign, readDigits?_append h hc]

theorem Delimited.readFraction? {cs : List Char} (h : Delimited cs) :
    readFraction? cs = some ([], cs) := by
  cases h <;> rfl

theorem Delimited.readExponent? {cs : List Char} (h : Delimited cs) :
    readExponent? cs = some ([], cs) := by
  cases h <;> rfl

theorem readMinus_digits {ds : List Char} (h : IsDigits ds) (cs : List Char) :
    readMinus (ds ++ cs) = (false, ds ++ cs) := by
  cases ds with
  | nil => exact absurd rfl h.ne_nil
  | cons d ds =>
      have hd := h.digit d (by simp)
      simp only [List.cons_append]
      unfold readMinus
      split
      · rename_i heq; simp only [List.cons.injEq] at heq; rw [heq.1] at hd; cases hd
      · rfl

/-! ## Integers -/

theorem isWhole_toDigits (n : Nat) : IsWhole (Nat.toDigits 10 n) := by
  refine ⟨.of_toDigits n, ?_⟩
  by_cases h : 0 < n
  · exact Or.inl (Digits.head?_toDigits_ne_zero h)
  · right; rw [show n = 0 by omega]; rfl

theorem toList_intText (n : Int) :
    (intText n).toList = if n < 0 then '-' :: Nat.toDigits 10 n.natAbs
      else Nat.toDigits 10 n.natAbs := by
  simp only [intText, String.toList_ofList]

theorem readNumber?_intText (n : Int) {tail : List Char} (ht : Delimited tail) :
    readNumber? ((intText n).toList ++ tail) = some (.int n, tail) := by
  have hw := isWhole_toDigits n.natAbs
  have hread := readWhole?_append hw ht.noDigit
  rw [toList_intText]
  split
  · rename_i hn
    have hv : Digits.signed true n.natAbs = n := by simp only [Digits.signed, if_true]; omega
    simp [readNumber?, readMinus, hread, ht.readFraction?, ht.readExponent?,
      Digits.number_toDigits, hv]
  · rename_i hn
    have hv : Digits.signed false n.natAbs = n := by
      simp only [Digits.signed, Bool.false_eq_true, if_false]; omega
    simp [readNumber?, readMinus_digits hw.toIsDigits, hread, ht.readFraction?, ht.readExponent?,
      Digits.number_toDigits, hv]

/-! ## Floats -/

/-- The parts of a spelling, which is no integer token. -/
theorem Spelling.parts {cs tail : List Char} (h : Spelling cs) (ht : Delimited tail) :
    ∃ whole fraction exponent rest₁ rest₂, cs = whole ++ (fraction ++ exponent) ∧ IsDigits whole ∧
      (fraction.isEmpty && exponent.isEmpty) = false ∧
      readWhole? (cs ++ tail) = some (whole, rest₁) ∧
      readFraction? rest₁ = some (fraction, rest₂) ∧
      readExponent? rest₂ = some (exponent, tail) := by
  cases h with
  | @fraction whole fraction hw hf =>
      refine ⟨whole, '.' :: fraction, [], '.' :: (fraction ++ tail), tail, by simp,
        hw.toIsDigits, rfl, ?_, readFraction?_point hf ht.noDigit, ht.readExponent?⟩
      rw [List.append_assoc]
      exact readWhole?_append hw (noDigit_cons rfl _)
  | @exponent whole exponent sign hw hs he =>
      refine ⟨whole, [], 'e' :: sign :: exponent, 'e' :: sign :: (exponent ++ tail), _, by simp,
        hw.toIsDigits, rfl, ?_, readFraction?_none (by decide) _,
        readExponent?_letter hs he ht.noDigit⟩
      rw [List.append_assoc]
      exact readWhole?_append hw (noDigit_cons rfl _)
  | @both whole fraction exponent sign hw hf hs he =>
      refine ⟨whole, '.' :: fraction, 'e' :: sign :: exponent,
        '.' :: (fraction ++ 'e' :: sign :: (exponent ++ tail)), _,
        by simp, hw.toIsDigits, rfl, ?_, readFraction?_point hf (noDigit_cons rfl _),
        readExponent?_letter hs he ht.noDigit⟩
      simp only [List.append_assoc, List.cons_append]
      exact readWhole?_append hw (noDigit_cons rfl _)

theorem readNumber?_spelling {cs tail : List Char} (negative : Bool) (h : Spelling cs)
    (ht : Delimited tail) : readNumber? ((if negative then '-' :: cs else cs) ++ tail) =
      some (.number (String.ofList (if negative then '-' :: cs else cs)), tail) := by
  obtain ⟨whole, fraction, exponent, rest₁, rest₂, rfl, hw, hne, h₁, h₂, h₃⟩ := Spelling.parts h ht
  cases negative with
  | true =>
      simp only [readNumber?, readMinus, List.cons_append, if_true, h₁, h₂, h₃, hne,
      Option.bind_eq_bind, Option.bind_some, Bool.false_eq_true, if_false, Option.pure_def]
  | false =>
      have hm := readMinus_digits hw ((fraction ++ exponent) ++ tail)
      rw [← List.append_assoc] at hm
      simp only [readNumber?, Bool.false_eq_true, if_false, hm, h₁, h₂, h₃, hne,
        Option.bind_eq_bind, Option.bind_some, Option.pure_def]

theorem readNumber?_text {x : Double} (hx : x.isFinite = true) {tail : List Char}
    (ht : Delimited tail) : readNumber? (x.text.toList ++ tail) = some (.number x.text, tail) := by
  cases x with
  | nan => cases hx
  | infinite _ => cases hx
  | finite negative significand exponent =>
      rw [Double.toList_text, readNumber?_spelling _ (Double.spelling_unsignedText _ _) ht,
        ← Double.toList_text, String.ofList_toList]

end BootConfig.Json
