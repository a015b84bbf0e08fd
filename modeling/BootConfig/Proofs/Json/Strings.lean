import BootConfig.Json.Reader
import BootConfig.Proofs.Text.Digits

/-!
# Strings read back

How a character is written, and that the reader takes the characters of a written string back one by
one.
-/

namespace BootConfig.Json

/-! ## The three ways to write a character -/

/-- The letters that are written behind a backslash, with the characters they stand for. -/
def escapeLetters : List (Char × Char) :=
  [('"', '"'), ('\\', '\\'), ('b', '\x08'), ('f', '\x0c'), ('n', '\n'), ('r', '\r'), ('t', '\t')]

/-- How a character is written: as itself, behind a backslash by a letter, or by its number. -/
inductive Escaped (c : Char) : List Char → Prop where
  | itself (h : 32 ≤ c.toNat) (hq : c ≠ '"') (hb : c ≠ '\\') : Escaped c [c]
  | letter {x : Char} (h : (x, c) ∈ escapeLetters) : Escaped c ['\\', x]
  | number (h : c.toNat < 32) :
      Escaped c ['\\', 'u', '0', '0', Digits.lowerHex (c.toNat / 16),
      Digits.lowerHex (c.toNat % 16)]

theorem escaped (c : Char) : Escaped c (escape c) := by
  unfold escape
  split
  · rename_i h; subst h; exact .letter (by decide)
  split
  · rename_i h; subst h; exact .letter (by decide)
  split
  · rename_i h; subst h; exact .letter (by decide)
  split
  · rename_i h; subst h; exact .letter (by decide)
  split
  · rename_i h; subst h; exact .letter (by decide)
  split
  · rename_i h; subst h; exact .letter (by decide)
  split
  · rename_i h; subst h; exact .letter (by decide)
  split
  · rename_i h; exact .number h
  · rename_i hq hb _ _ _ _ _ h; exact .itself (by omega) hq hb

theorem escape_ne_nil (c : Char) : escape c ≠ [] := by
  cases he : escape c with
  | nil => have h := escaped c; rw [he] at h; cases h
  | cons _ _ => simp

/-! ## Reading -/

theorem shortEscape?_of_letter {x c : Char} (h : (x, c) ∈ escapeLetters) :
    shortEscape? x = some c := by
  have hall : ∀ p ∈ escapeLetters, shortEscape? p.1 = some p.2 := by decide
  exact hall _ h

theorem readEscape?_of_letter {x c : Char} (h : (x, c) ∈ escapeLetters) (rest : List Char) :
    readEscape? (x :: rest) = some (c, rest) := by
  have hu : ∀ p ∈ escapeLetters, p.1 ≠ 'u' := by decide
  have hx := hu _ h
  unfold readEscape?
  split
  · rename_i heq; simp only [List.cons.injEq] at heq; exact absurd heq.1 hx
  · rename_i heq; simp only [List.cons.injEq] at heq
    rw [← heq.1, ← heq.2, shortEscape?_of_letter h]; rfl
  · rename_i heq; cases heq

theorem readEscape?_of_number {c : Char} (h : c.toNat < 32) (rest : List Char) :
    readEscape? ('u' :: '0' :: '0' :: Digits.lowerHex (c.toNat / 16) ::
      Digits.lowerHex (c.toNat % 16) :: rest) = some (c, rest) := by
  have hn := Digits.number?_hex (show c.toNat < 256 by omega)
  have h₁ : ¬(0xDC00 ≤ c.toNat ∧ c.toNat < 0xE000) := by omega
  have h₂ : ¬(0xD800 ≤ c.toNat ∧ c.toNat < 0xDC00) := by omega
  simp [readEscape?, readUnit?, hn, h₁, h₂]

theorem readChars_itself {c : Char} (h : 32 ≤ c.toNat) (hq : c ≠ '"') (hb : c ≠ '\\') (fuel : Nat)
    (rest : List Char) :
    readChars (fuel + 1) (c :: rest) =
      (readChars fuel rest).map fun (cs, rest) => (c :: cs, rest) := by
  rw [readChars.eq_3 _ _ _ hq hb, if_neg (by omega)]
  cases readChars fuel rest <;> rfl

theorem readChars_escaped {c : Char} {w : List Char} (h : Escaped c w) (fuel : Nat)
    (rest : List Char) :
    readChars (fuel + 1) (w ++ rest) =
      (readChars fuel rest).map fun (cs, rest) => (c :: cs, rest) := by
  cases h with
  | itself h hq hb => exact readChars_itself h hq hb fuel rest
  | letter h =>
      simp only [List.cons_append, List.nil_append, readChars, readEscape?_of_letter h,
        Option.bind_eq_bind, Option.bind_some]
      cases readChars fuel rest <;> rfl
  | number h =>
      simp only [List.cons_append, List.nil_append, readChars, readEscape?_of_number h,
        Option.bind_eq_bind, Option.bind_some]
      cases readChars fuel rest <;> rfl

theorem readChars_escape {fuel : Nat} (cs tail : List Char) (h : cs.length < fuel) :
    readChars fuel (cs.flatMap escape ++ '"' :: tail) = some (cs, tail) := by
  induction cs generalizing fuel with
  | nil =>
      cases fuel with
      | zero => simp at h
      | succ fuel => rfl
  | cons c cs ih =>
      cases fuel with
      | zero => simp at h
      | succ fuel =>
          have ht : readChars fuel (cs.flatMap escape ++ '"' :: tail) = some (cs, tail) :=
            ih (by simpa using h)
          rw [List.flatMap_cons, List.append_assoc, readChars_escaped (escaped c), ht]
          rfl

theorem length_le_flatMap_escape (cs : List Char) : cs.length ≤ (cs.flatMap escape).length := by
  induction cs with
  | nil => exact Nat.le_refl _
  | cons c cs ih =>
      have hc := List.length_pos_iff.mpr (escape_ne_nil c)
      simp only [List.flatMap_cons, List.length_append, List.length_cons]
      omega

/-- Behind its opening quote, a written string is read back up to the closing one. -/
theorem readString?_written (text : String) (tail : List Char) :
    readString? (text.toList.flatMap escape ++ '"' :: tail) = some (text, tail) := by
  have hl := length_le_flatMap_escape text.toList
  rw [readString?,
    readChars_escape _ _ (by simp only [List.length_append, List.length_cons]; omega)]
  simp only [Option.map_some, String.ofList_toList]

end BootConfig.Json
