import BootConfig.Proofs.Json.Numbers
import BootConfig.Proofs.Json.Strings

/-!
# The text of a tree

What is written of a tree stands in front of what follows, and begins with a character that no other
kind of token begins with.
-/

namespace BootConfig.Json

open Double (IsDigits IsWhole Spelling)

/-! ## In front of what follows -/

theorem newline_append (level : Nat) (cs tail : List Char) :
    newline level (cs ++ tail) = newline level cs ++ tail := by
  simp only [newline, List.cons_append, List.append_assoc]

theorem writeString_append (text : String) (cs tail : List Char) :
    writeString text (cs ++ tail) = writeString text cs ++ tail := by
  simp only [writeString, List.cons_append, List.append_assoc]

mutual

theorem write_append (level : Nat) : (t : Tree) → (cs tail : List Char) →
    write level t (cs ++ tail) = write level t cs ++ tail
  | .null, _, _ => rfl
  | .bool _, _, _ => by simp only [write, List.append_assoc]
  | .int _, _, _ => by simp only [write, List.append_assoc]
  | .float x, _, _ => by
      simp only [write]
      split
      · rw [List.append_assoc]
      · rfl
  | .str _, _, _ => writeString_append _ _ _
  | .seq [], _, _ => rfl
  | .seq (t :: ts), cs, tail => by
      simp only [write, writeItems_append (level + 1) ts, write_append (level + 1) t,
        ← List.cons_append, newline_append]
  | .map [], _, _ => rfl
  | .map ((k, v) :: es), cs, tail => by
      simp only [write, writeEntries_append (level + 1) es, write_append (level + 1) v,
        ← List.cons_append, newline_append, writeString_append]
  | .tagged name value, cs, tail => by
      simp only [write, write_append (level + 1) value, ← List.cons_append, newline_append,
        writeString_append]

theorem writeItems_append (level : Nat) : (ts : List Tree) → (cs tail : List Char) →
    writeItems level ts (cs ++ tail) = writeItems level ts cs ++ tail
  | [], _, _ => rfl
  | t :: ts, cs, tail => by
      simp only [writeItems, writeItems_append level ts, write_append level t, newline_append,
        List.cons_append]

theorem writeEntries_append (level : Nat) : (es : Entries) → (cs tail : List Char) →
    writeEntries level es (cs ++ tail) = writeEntries level es cs ++ tail
  | [], _, _ => rfl
  | (k, v) :: es, cs, tail => by
      simp only [writeEntries, writeEntries_append level es, write_append level v,
        ← List.cons_append, newline_append, writeString_append]

end

theorem write_eq (level : Nat) (t : Tree) (tail : List Char) :
    write level t tail = write level t [] ++ tail :=
  write_append level t [] tail

/-! ## The first character -/

/-- The characters that the text of a value begins with. -/
def startsValue (c : Char) : Bool :=
  c == 'n' || c == 't' || c == 'f' || c == '"' || c == '[' || c == '{' || c == '-' || c.isDigit

theorem startsValue_of_isDigit {c : Char} (h : c.isDigit = true) : startsValue c = true := by
  simp only [startsValue, h, Bool.or_true]

theorem IsDigits.startsValue {ds : List Char} (h : IsDigits ds) (tail : List Char) :
    ∃ c cs, ds ++ tail = c :: cs ∧ startsValue c = true := by
  cases ds with
  | nil => exact absurd rfl h.ne_nil
  | cons d ds => exact ⟨d, _, rfl, startsValue_of_isDigit (h.digit d (by simp))⟩

theorem Spelling.startsValue {cs : List Char} (h : Spelling cs) (tail : List Char) :
    ∃ d ds, cs ++ tail = d :: ds ∧ startsValue d = true := by
  cases h with
  | fraction hw _ => rw [List.append_assoc]; exact IsDigits.startsValue hw.toIsDigits _
  | exponent hw _ _ => rw [List.append_assoc]; exact IsDigits.startsValue hw.toIsDigits _
  | both hw _ _ _ => rw [List.append_assoc]; exact IsDigits.startsValue hw.toIsDigits _

theorem write_starts (level : Nat) (t : Tree) (tail : List Char) :
    ∃ c cs, write level t tail = c :: cs ∧ startsValue c = true := by
  cases t with
  | null => exact ⟨_, _, rfl, rfl⟩
  | bool b => cases b <;> exact ⟨_, _, rfl, rfl⟩
  | int n =>
      simp only [write, toList_intText]
      split
      · exact ⟨_, _, rfl, rfl⟩
      · exact IsDigits.startsValue (.of_toDigits _) _
  | float x =>
      simp only [write]
      split
      · rename_i hx
        cases x with
        | nan => cases hx
        | infinite _ => cases hx
        | finite negative significand exponent =>
            rw [Double.toList_text]
            split
            · exact ⟨_, _, rfl, rfl⟩
            · exact Spelling.startsValue (Double.spelling_unsignedText _ _) _
      · exact ⟨_, _, rfl, rfl⟩
  | str _ => exact ⟨_, _, rfl, rfl⟩
  | seq ts => cases ts <;> exact ⟨_, _, rfl, rfl⟩
  | map es => cases es <;> exact ⟨_, _, rfl, rfl⟩
  | tagged _ _ => exact ⟨_, _, rfl, rfl⟩

theorem length_lt_write (level : Nat) (t : Tree) (tail : List Char) :
    tail.length < (write level t tail).length := by
  obtain ⟨c, cs, h, _⟩ := write_starts level t []
  rw [write_eq, h]
  simp only [List.cons_append, List.length_cons, List.length_append]
  omega

/-! ## What follows -/

theorem delimited_newline (level : Nat) (tail : List Char) : Delimited (newline level tail) :=
  .newline _

end BootConfig.Json
