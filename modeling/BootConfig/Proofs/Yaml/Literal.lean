import BootConfig.Proofs.Yaml.Token.Ends
import BootConfig.Yaml.Resolve

/-!
# Text in the input

Where the text of a scalar is a part of the input, up to what closes the scalar, it is found there,
and the byte in front of it is a quote just when the character is one.
-/

namespace BootConfig.Yaml

/-! ## Bytes of a text -/

theorem length_utf8 (cs : List Char) : (Utf8.encode cs).length = bytes cs := by
  induction cs with
  | nil => rfl
  | cons c cs ih =>
      rw [← List.singleton_append, Utf8.encode_append, Utf8.encode_singleton,
        List.length_append, ih]
      simp [bytes]

theorem utf8ByteSize_ofList (cs : List Char) : (String.ofList cs).utf8ByteSize = bytes cs := by
  rw [← length_utf8, ← Utf8.toList_toUTF8, Array.length_toList]
  rfl

theorem getElem?_toUTF8 (cs : List Char) (n : Nat) :
    (String.ofList cs).toUTF8[n]? = (Utf8.encode cs)[n]? := by
  rw [← Utf8.toList_toUTF8, Array.getElem?_toList]
  rfl

theorem extract_toUTF8 (done part rest : List Char) :
    ((String.ofList (done ++ (part ++ rest))).toUTF8.extract (bytes done)
      (bytes done + bytes part)).data = (String.ofList part).toUTF8.data := by
  apply Array.toList_inj.mp
  rw [ByteArray.data_extract, Array.toList_extract, Utf8.toList_toUTF8, Utf8.toList_toUTF8,
    List.extract_eq_take_drop]
  simp only [Utf8.encode_append]
  rw [← length_utf8 done, ← length_utf8 part, List.drop_left, Nat.add_sub_cancel_left,
    List.take_left]

/-! ## Quotes -/

theorem ofNat_beq (n : Nat) (b : UInt8) : (UInt8.ofNat n == b) = decide (n % 256 = b.toNat) := by
  rw [Bool.eq_iff_iff, beq_iff_eq, decide_eq_true_eq, ← UInt8.toNat_inj, UInt8.toNat_ofNat']

theorem getLast?_utf8 (c : Char) : (String.utf8EncodeChar c).getLast? =
    some (UInt8.ofNat (if c.val.toNat ≤ 127 then c.val.toNat else c.val.toNat % 64 + 128)) := by
  unfold String.utf8EncodeChar
  split
  · rename_i h
    simp only [if_pos h]
    rfl
  · rename_i h
    simp only [if_neg h]
    split
    · rfl
    · split <;> rfl

/-- Of the characters, only a quote ends with the byte of one. -/
theorem last_byte (c : Char) :
    (String.utf8EncodeChar c).getLast?.any (fun b => b == 34 || b == 39) = isQuote c := by
  have hval : ∀ q : Char, c = q ↔ c.val.toNat = q.toNat := fun q =>
    ⟨fun h => by rw [h]; rfl, fun h => Char.ext (UInt32.toNat_inj.mp h)⟩
  have hquote : isQuote c = true ↔ c.val.toNat = 34 ∨ c.val.toNat = 39 := by
    simp only [isQuote, Bool.or_eq_true, beq_iff_eq]
    exact or_congr (hval '"') (hval '\'')
  have h₁ : (34 : UInt8).toNat = 34 := rfl
  have h₂ : (39 : UInt8).toNat = 39 := rfl
  rw [Bool.eq_iff_iff, hquote, getLast?_utf8]
  simp only [Option.any_some, ofNat_beq, h₁, h₂, Bool.or_eq_true, decide_eq_true_eq]
  split <;> omega

theorem quoteBefore_toUTF8 (done rest : List Char) :
    Resolve.quoteBefore (String.ofList (done ++ rest)).toUTF8
    (bytes done) = done.getLast?.any isQuote := by
  rcases List.eq_nil_or_concat' done with rfl | ⟨front, q, rfl⟩
  · rfl
  · have hpos := q.utf8Size_pos
    obtain ⟨n, hn⟩ : ∃ n, bytes (front ++ [q]) = n + 1 :=
      ⟨bytes front + q.utf8Size - 1, by simp [bytes]; omega⟩
    have hb : n = bytes front + (q.utf8Size - 1) := by simp [bytes] at hn; omega
    rw [hn, Resolve.quoteBefore, getElem?_toUTF8, List.getLast?_concat, Option.any_some,
      ← last_byte q]
    have hget : (Utf8.encode (front ++ [q] ++ rest))[n]? = (String.utf8EncodeChar q).getLast? := by
      rw [List.getLast?_eq_getElem?, String.length_utf8EncodeChar]
      simp only [Utf8.encode_append, Utf8.encode_singleton, List.append_assoc]
      rw [List.getElem?_append_right (by rw [length_utf8]; omega), length_utf8, hb,
        Nat.add_sub_cancel_left,
        List.getElem?_append_left (by rw [String.length_utf8EncodeChar]; omega)]
    rw [hget]
    cases (String.utf8EncodeChar q).getLast? <;> rfl

/-! ## Literal scalars -/

section Literal

variable {style : Style} {quotes start : Nat} {tag : Option TagText}
  (hq : Resolve.closingQuotes? style = some quotes) (done rest : List Char) (s : String)
  (hs : start ≤ bytes done)

include hq hs

/-- A text that is a part of the input is found there if no more than its closing quote is behind
it. -/
theorem literal?_eq :
    Resolve.literal? (String.ofList (done ++ (s.toList ++ rest))).toUTF8
      ⟨tag, style, s, start, bytes done + bytes s.toList + quotes⟩ = some (bytes done) := by
  have hsize : s.utf8ByteSize = bytes s.toList := by
    rw [← utf8ByteSize_ofList, String.ofList_toList]
  have hoffset : bytes done + bytes s.toList + quotes - quotes - bytes s.toList =
      bytes done := by omega
  unfold Resolve.literal?
  simp only [hq, hsize, hoffset]
  rw [if_pos (by omega), extract_toUTF8, String.ofList_toList, if_pos rfl]

/-- Such a text is a string where a quote is in front of it, and read by the words of version 1.1
otherwise. -/
theorem text_of_part :
    Resolve.text (String.ofList (done ++ (s.toList ++ rest))).toUTF8
      ⟨tag, style, s, start, bytes done + bytes s.toList + quotes⟩ =
      if done.getLast?.any isQuote then .str s else Words.read s := by
  unfold Resolve.text
  rw [literal?_eq hq done rest s hs]
  simp only [quoteBefore_toUTF8]

end Literal

end BootConfig.Yaml
