import BootConfig.Proofs.Text.Digits
import BootConfig.Yaml.Words
import Mathlib.Algebra.Group.Nat.Defs

/-!
# The words by their grammar

A text that version 1.2 leaves open is a boolean just when it is a switch word, an integer just when
it is an octal number whose magnitude fits into 63 bits, and the text itself otherwise.
-/

namespace BootConfig.Yaml.Words

/-! ## Octal numbers -/

/-- The number that octal digits spell, underscores aside. -/
def magnitude (ds : List Char) : Nat := Nat.ofDigitChars 8 (ds.filter (· != '_')) 0

/-- A text of the form `[-+]?0[0-7_]+`. -/
structure OctalForm (text sign ds : List Char) : Prop where
  text : text = sign ++ '0' :: ds
  sign : sign ∈ [[], ['+'], ['-']]
  filled : ds ≠ []
  digits : ∀ d ∈ ds, d = '_' ∨ '0' ≤ d ∧ d ≤ '7'

/-- A text of that form, its magnitude below `2 ^ 63`. -/
structure IsOctal (text sign ds : List Char) : Prop extends OctalForm text sign ds where
  bound : magnitude ds ≤ 2 ^ 63 - 1

variable {text sign ds : List Char}

theorem isDigit_octal {d : Char} (h : '0' ≤ d ∧ d ≤ '7') :
    d.isDigit = true ∧ Digits.isDigit 8 d = true := by
  have h₁ : 48 ≤ d.toNat := h.1
  have h₂ : d.toNat ≤ 55 := h.2
  have hd : d.isDigit = true := by
    simp only [Char.isDigit, Bool.and_eq_true, decide_eq_true_eq]
    exact ⟨h.1, Nat.le_trans h.2 (by decide)⟩
  refine ⟨hd, ?_⟩
  simp only [Digits.isDigit, Digits.value?_of_isDigit hd, Option.any_some, decide_eq_true_eq]
  omega

theorem octal_of_isDigit {c : Char} (h : Digits.isDigit 8 c = true) : '0' ≤ c ∧ c ≤ '7' := by
  obtain ⟨v, hv, hlt⟩ := (Option.any_eq_true _ _).mp h
  simp only [decide_eq_true_eq] at hlt
  unfold Digits.value? at hv
  split at hv
  · rename_i hc
    cases hv
    have : c.toNat ≤ 55 := by omega
    exact ⟨hc.1, this⟩
  · split at hv
    · rename_i hc
      cases hv
      have : 97 ≤ c.toNat := hc.1
      omega
    · split at hv
      · rename_i hc
        cases hv
        have : 65 ≤ c.toNat := hc.1
        omega
      · cases hv

theorem number_octal (h : ∀ d ∈ ds, d = '_' ∨ '0' ≤ d ∧ d ≤ '7') :
    Digits.number 8 (ds.filter (· != '_')) = magnitude ds := by
  refine Digits.append_eq 8 (fun c hc => ?_) 0
  obtain ⟨hc, hu⟩ := List.mem_filter.mp hc
  exact (isDigit_octal ((h c hc).resolve_left (by simpa using hu))).1

theorem eq_of_sign {text cs : List Char} {negative : Bool} (h : Digits.sign text = (negative, cs)) :
    ∃ sign ∈ [[], ['+'], ['-']], text = sign ++ cs ∧ negative = decide (sign = ['-']) := by
  unfold Digits.sign at h
  split at h
  · cases h
    exact ⟨['-'], by simp, rfl, rfl⟩
  · cases h
    exact ⟨['+'], by simp, rfl, rfl⟩
  · cases h
    exact ⟨[], by simp, rfl, rfl⟩

namespace OctalForm

theorem sign_eq (h : OctalForm text sign ds) :
    Digits.sign text = (decide (sign = ['-']), '0' :: ds) := by
  have hs := h.sign
  rw [h.text]
  simp only [List.mem_cons, List.not_mem_nil, or_false] at hs
  rcases hs with rfl | rfl | rfl <;> rfl

theorem number_eq (h : OctalForm text sign ds) :
    Digits.number 8 (ds.filter (· != '_')) = magnitude ds := number_octal h.digits

theorem octal?_eq (h : OctalForm text sign ds) :
    octal? text = if 2 ^ 63 ≤ magnitude ds then none
      else some (if sign = ['-'] then -(magnitude ds : Int) else magnitude ds) := by
  have hall : ds.all (fun c => Digits.isDigit 8 c || c == '_') = true :=
    List.all_eq_true.mpr fun c hc => by
    rcases h.digits c hc with rfl | hd
    · rfl
    · rw [(isDigit_octal hd).2]
      rfl
  have hempty : ds.isEmpty = false := List.isEmpty_eq_false_iff.mpr h.filled
  have hbound : Nat.pow 2 63 = 2 ^ 63 := rfl
  unfold octal?
  rw [h.sign_eq]
  simp only [h.number_eq, hall, hempty, hbound]
  simp [Digits.signed]

theorem no_letter (h : OctalForm text sign ds) : text.head?.any Char.isAlpha = false := by
  have hs := h.sign
  rw [h.text]
  simp only [List.mem_cons, List.not_mem_nil, or_false] at hs
  rcases hs with rfl | rfl | rfl <;> rfl

end OctalForm

namespace IsOctal

theorem octal?_eq (h : IsOctal text sign ds) :
    octal? text = some (if sign = ['-'] then -(magnitude ds : Int) else magnitude ds) := by
  have hbound : ¬2 ^ 63 ≤ magnitude ds := by
    have := h.bound
    omega
  rw [h.toOctalForm.octal?_eq, if_neg hbound]

theorem toInt_magnitude (h : IsOctal text sign ds) :
    (Int64.ofNat (magnitude ds)).toInt = magnitude ds := by
  have := h.bound
  exact Int64.toInt_ofNat_of_lt (by omega)

/-- The only number of 64 bits whose negation is not one, -2^63, is no magnitude. -/
theorem toInt_neg_magnitude (h : IsOctal text sign ds) :
    (-Int64.ofNat (magnitude ds)).toInt = -(magnitude ds : Int) := by
  have := h.bound
  rw [Int64.toInt_neg, h.toInt_magnitude]
  exact Int.bmod_eq_of_le (by omega) (by omega)

end IsOctal

/-- What is read in base 8 has the form of an octal number. -/
theorem isOctal_of_octal? {n : Int} (h : octal? text = some n) :
    ∃ sign ds, IsOctal text sign ds ∧ n = if sign = ['-'] then -(magnitude ds : Int)
      else magnitude ds := by
  unfold octal? at h
  split at h
  · rename_i negative ds hsign
    simp only at h
    split at h
    · cases h
    · rename_i hc
      cases h
      simp only [Bool.or_eq_true, decide_eq_true_eq, Bool.not_eq_true', not_or, Nat.not_le,
        Bool.not_eq_false, List.isEmpty_iff] at hc
      obtain ⟨⟨hfilled, hall⟩, hbound⟩ := hc
      obtain ⟨sign, hm, htext, rfl⟩ := eq_of_sign hsign
      have hdigits : ∀ d ∈ ds, d = '_' ∨ '0' ≤ d ∧ d ≤ '7' := fun d hd => by
        have := List.all_eq_true.mp hall d hd
        simp only [Bool.or_eq_true, beq_iff_eq] at this
        exact this.symm.imp_right octal_of_isDigit
      have hnumber := number_octal hdigits
      have hp : Nat.pow 2 63 = 2 ^ 63 := rfl
      refine ⟨sign, ds, ⟨⟨htext, hm, hfilled, hdigits⟩, by omega⟩, ?_⟩
      simp [hnumber, Digits.signed]
  · cases h

theorem octal?_eq_some_iff {n : Int} :
    octal? text = some n ↔
      ∃ sign ds, IsOctal text sign ds ∧ n = if sign = ['-'] then -(magnitude ds : Int)
      else magnitude ds := by
  refine ⟨isOctal_of_octal?, ?_⟩
  rintro ⟨sign, ds, h, rfl⟩
  exact h.octal?_eq

theorem octal?_eq_none_iff : octal? text = none ↔ ∀ sign ds, ¬IsOctal text sign ds := by
  rw [Option.eq_none_iff_forall_ne_some]
  constructor
  · intro h sign ds ho
    exact h _ ho.octal?_eq
  · intro h n hn
    obtain ⟨sign, ds, ho, _⟩ := isOctal_of_octal? hn
    exact h sign ds ho

/-! ## Switch words -/

/-- The words for a switch that is on or off, in lower, title and upper case. -/
def switches (on : Bool) : List String :=
  (if on then ["yes", "on"] else ["no", "off"]).flatMap fun word =>
    [word, word.capitalize, word.toUpper]

theorem switches_true : switches true = onWords := by decide +kernel

theorem switches_false : switches false = offWords := by decide +kernel

theorem switch?_eq_some_iff {text : String} {on : Bool} :
    switch? text = some on ↔ text ∈ switches on := by
  have hapart : ∀ word ∈ offWords, word ∉ onWords := by decide
  unfold switch?
  cases on with
  | true =>
      rw [switches_true]
      by_cases h : text ∈ onWords <;> simp [h]
  | false =>
      rw [switches_false]
      by_cases h : text ∈ offWords
      · simp [h, hapart text h]
      · simp [h]

theorem switch?_eq_none_iff {text : String} : switch? text = none ↔ ∀ on, text ∉ switches on := by
  simp only [Option.eq_none_iff_forall_ne_some, ne_eq, switch?_eq_some_iff]

theorem OctalForm.not_mem_switches {text : String} (h : OctalForm text.toList sign ds) (on : Bool) :
    text ∉ switches on := by
  have hall :
      ∀ on, ∀ word ∈ switches on, word.toList.head?.any Char.isAlpha = true := by decide +kernel
  intro hm
  have hletter := hall on text hm
  rw [h.no_letter] at hletter
  cases hletter

theorem OctalForm.switch?_eq {text : String} (h : OctalForm text.toList sign ds) :
    switch? text = none :=
  switch?_eq_none_iff.mpr h.not_mem_switches

/-! ## What a text is read as -/

theorem read_eq_bool_iff {text : String} {b : Bool} :
    read text = .bool b ↔ switch? text = some b := by
  unfold read
  cases switch? text with
  | some on => simp
  | none => cases octal? text.toList <;> simp

theorem read_eq_int_iff {text : String} {n : Int} :
    read text = .int n ↔ octal? text.toList = some n := by
  unfold read
  cases ho : octal? text.toList with
  | none => cases switch? text <;> simp
  | some m =>
      -- The switch words are looked for first, but none of them is an octal number.
      obtain ⟨sign, ds, h, _⟩ := isOctal_of_octal? ho
      simp [h.switch?_eq]

theorem read_eq_str_iff {text s : String} :
    read text = .str s ↔ s = text ∧ switch? text = none ∧ octal? text.toList = none := by
  unfold read
  cases switch? text with
  | some on => simp
  | none => cases octal? text.toList <;> simp [eq_comm]

/-- Texts with a meaning of their own in version 1.1: the switch words in lower, title and upper
case, and octal numbers. -/
inductive Says : String → Tree → Prop where
  | on {text : String} (h : text ∈ onWords) : Says text (.bool true)
  | off {text : String} (h : text ∈ offWords) : Says text (.bool false)
  | octal {text : String} {sign ds : List Char} (h : IsOctal text.toList sign ds) :
      Says text (.int (if sign = ['-'] then -(magnitude ds : Int) else magnitude ds))

theorem Says.read_eq {text : String} {t : Tree} (h : Says text t) : read text = t := by
  cases h with
  | on h => exact read_eq_bool_iff.mpr (switch?_eq_some_iff.mpr (switches_true ▸ h))
  | off h => exact read_eq_bool_iff.mpr (switch?_eq_some_iff.mpr (switches_false ▸ h))
  | octal h => exact read_eq_int_iff.mpr h.octal?_eq

/-- A text that is not read as itself has a meaning of its own. -/
theorem Says.of_read {text : String} (h : read text ≠ .str text) : Says text (read text) := by
  unfold read at h ⊢
  cases hs : switch? text with
  | some on =>
      have hm := switch?_eq_some_iff.mp hs
      cases on with
      | true => exact .on (switches_true ▸ hm)
      | false => exact .off (switches_false ▸ hm)
  | none =>
      cases ho : octal? text.toList with
      | some n =>
          obtain ⟨sign, ds, hoctal, rfl⟩ := isOctal_of_octal? ho
          exact .octal hoctal
      | none => simp [hs, ho] at h

/-- The octal numbers are the texts of the form `[-+]?0[0-7_]+` whose magnitude has 63 bits, so that
it can be negated in 64 bits. They are read as their value, the switch words as booleans, and no
text is both. Any other text is read as itself. -/
theorem read_by_grammar (text : String) :
    (∀ n, octal? text.toList = some n ↔
      ∃ sign ds, IsOctal text.toList sign ds ∧ n = if sign = ['-'] then -(magnitude ds : Int)
        else magnitude ds) ∧
    (∀ sign ds, IsOctal text.toList sign ds →
      (Int64.ofNat (magnitude ds)).toInt = magnitude ds ∧
      (-Int64.ofNat (magnitude ds)).toInt = -(magnitude ds : Int)) ∧
    (∀ n, read text = .int n ↔ octal? text.toList = some n) ∧
    (∀ b, read text = .bool b ↔ text ∈ switches b) ∧
    (∀ s, read text = .str s ↔
      s = text ∧ (∀ b, text ∉ switches b) ∧ ∀ sign ds, ¬IsOctal text.toList sign ds) ∧
    (∀ sign ds, IsOctal text.toList sign ds → ∀ b, text ∉ switches b) := by
  refine ⟨fun n => octal?_eq_some_iff, fun sign ds h => ⟨h.toInt_magnitude, h.toInt_neg_magnitude⟩,
    fun n => read_eq_int_iff, fun b => ?_, fun s => ?_, fun sign ds h => h.not_mem_switches⟩
  · rw [read_eq_bool_iff, switch?_eq_some_iff]
  · rw [read_eq_str_iff, switch?_eq_none_iff, octal?_eq_none_iff]

/-- The least of the octal numbers, with an underscore. -/
theorem read_by_grammar_least :
    IsOctal "-0_777777777777777777777".toList ['-'] "_777777777777777777777".toList ∧
      (-Int64.ofNat (magnitude "_777777777777777777777".toList)).toInt = -9223372036854775807 ∧
      read "-0_777777777777777777777" = .int (-9223372036854775807) ∧
      ∀ b, "-0_777777777777777777777" ∉ switches b := by
  have hm : magnitude "_777777777777777777777".toList = 9223372036854775807 := by decide +kernel
  have hdigits :
      "_777777777777777777777".toList.all (fun d => d = '_' ∨ '0' ≤ d ∧ d ≤ '7') = true := by decide
  have h : IsOctal "-0_777777777777777777777".toList ['-'] "_777777777777777777777".toList :=
    ⟨⟨by decide, by decide, by decide, fun d hd => by simpa using List.all_eq_true.mp hdigits d hd⟩,
      by rw [hm]; decide⟩
  obtain ⟨hoctal, hbits, hint, _, _, hapart⟩ := read_by_grammar "-0_777777777777777777777"
  refine ⟨h, ?_, (hint _).mpr ((hoctal _).mpr ⟨_, _, h, ?_⟩), hapart _ _ h⟩
  · rw [(hbits _ _ h).2, hm]
    rfl
  · rw [hm]
    rfl

end BootConfig.Yaml.Words
