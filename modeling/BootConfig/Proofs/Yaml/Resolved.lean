import BootConfig.Proofs.Json.ReadBack
import BootConfig.Proofs.Yaml.Literal
import BootConfig.Proofs.Yaml.Scalars
import BootConfig.Proofs.Yaml.Token.Flow

/-!
# What written scalars mean

A string of the output is read as a string: where its text stands literally in the output a quote is
in front of it, and otherwise it has a character that no word has. Null, booleans and integers are
read as what they are.
-/

namespace BootConfig.Yaml

/-! ## Folded texts -/

theorem refold?_of_not_soft {cs : List Char} (h : ∀ c ∈ cs, isSoft c = false) :
    refold? cs = some cs := by
  simpa [refold?] using refold?_run h []

theorem isBreak_breakText (c : Char) : isBreak (Scan.breakText c) = true := by
  unfold Scan.breakText
  split
  · rename_i h
    simp only [Bool.or_eq_true] at h
    rcases h with h | h <;> simp [isBreak, h]
  · rfl

theorem Gap.Filled.add {g : Gap} (h : g = .empty ∨ g.Filled) (c : Char) : (g.add c).Filled := by
  unfold Gap.add
  split
  · rename_i hs
    obtain rfl : c = ' ' := by simpa using hs
    exact .addBlank h rfl
  · exact .addBreak h (isBreak_breakText c)

mutual

theorem refold?_soft : (cs : List Char) → {u : List Char} → refold? cs = some u →
    (∃ c ∈ cs, isSoft c = true) → ∃ c ∈ u, isGap c = true
  | [], _, _, ⟨_, h, _⟩ => absurd h List.not_mem_nil
  | c :: cs, u, h, hs => by
      rw [refold?] at h
      split at h
      · exact refoldGap?_soft cs (.add (Or.inl rfl) c) h
      · rename_i hc
        obtain ⟨v, hv, rfl⟩ := Option.map_eq_some_iff.mp h
        obtain ⟨x, hx, hsx⟩ := hs
        rcases List.mem_cons.mp hx with rfl | hx
        · exact absurd hsx hc
        · obtain ⟨y, hy, hg⟩ := refold?_soft cs hv ⟨x, hx, hsx⟩
          exact ⟨y, List.mem_cons_of_mem _ hy, hg⟩

theorem refoldGap?_soft : (cs : List Char) → {g : Gap} → {atStart : Bool} → {u : List Char} →
    g.Filled → refoldGap? g atStart cs = some u → ∃ c ∈ u, isGap c = true
  | [], g, _, _, hg, h => by
      cases h
      obtain ⟨c, hc, hr⟩ := hg.text
      exact ⟨c, List.mem_reverse.mpr hc, hr⟩
  | c :: cs, g, atStart, u, hg, h => by
      rw [refoldGap?] at h
      split at h
      · exact refoldGap?_soft cs (.add (Or.inr hg) c) h
      · split at h
        · cases h
        · obtain ⟨v, _, rfl⟩ := Option.map_eq_some_iff.mp h
          obtain ⟨x, hx, hr⟩ := hg.text
          exact ⟨x, List.mem_append_left _ (List.mem_reverse.mpr hx), hr⟩

end

/-! ## Texts that are no words -/

/-- The characters of words of version 1.1. -/
def isWordsChar (c : Char) : Bool := c.isAlphanum || c == '-' || c == '+' || c == '_'

namespace Words

theorem IsOctal.isWordsChar {text sign ds : List Char} (h : IsOctal text sign ds) :
    ∀ c ∈ text, isWordsChar c = true := by
  have hsign : ∀ c ∈ sign, Yaml.isWordsChar c = true := by
    have hs := h.sign
    simp only [List.mem_cons, List.not_mem_nil, or_false] at hs
    rcases hs with rfl | rfl | rfl <;> simp [Yaml.isWordsChar]
  have hds : ∀ c ∈ ds, Yaml.isWordsChar c = true := fun c hc => by
    rcases h.digits c hc with rfl | hd
    · rfl
    · simp [Yaml.isWordsChar, Char.isAlphanum, (isDigit_octal hd).1]
  rw [h.text]
  exact List.forall_mem_append.mpr ⟨hsign, List.forall_mem_cons.mpr ⟨rfl, hds⟩⟩

theorem Says.isWordsChar {text : String} {t : Tree} (h : Says text t) :
    ∀ c ∈ text.toList, isWordsChar c = true := by
  have hall : (onWords ++ offWords).all (·.toList.all Yaml.isWordsChar) = true := by decide
  have hword : ∀ word ∈ onWords ++ offWords, ∀ c ∈ word.toList, Yaml.isWordsChar c = true :=
    fun word hm =>
    List.all_eq_true.mp (List.all_eq_true.mp hall word hm)
  cases h with
  | on h => exact hword text (List.mem_append_left _ h)
  | off h => exact hword text (List.mem_append_right _ h)
  | octal h => exact h.isWordsChar

end Words

/-- What is no string is a word, without gaps or quotes. -/
theorem isWordsChar_of_read {text : String} (h : Words.read text ≠ .str text) :
    ∀ c ∈ text.toList, isWordsChar c = true :=
  (Words.Says.of_read h).isWordsChar

theorem read_of_not_word {text : String} {c : Char} (hm : c ∈ text.toList)
    (hc : isWordsChar c = false) : Words.read text = .str text := by
  by_contra h
  rw [isWordsChar_of_read h c hm] at hc
  cases hc

theorem isWordsChar_of_isGap {c : Char} (h : isGap c = true) : isWordsChar c = false := by
  simp only [isGap, isBlank, isBreak, Bool.or_eq_true, beq_iff_eq] at h
  rcases h with (rfl | rfl) | (((rfl | rfl) | rfl) | rfl) | rfl <;> decide

/-! ## Strings -/

open Json
open Yaml.Lex (Covers)

theorem isWordsChar_of_escaped {c : Char} (h : escape c ≠ [c]) : isWordsChar c = false := by
  have he := escaped c
  cases hw : escape c with
  | nil => exact absurd hw (escape_ne_nil c)
  | cons x w =>
      rw [hw] at he h
      cases he with
      | itself _ _ _ => exact absurd rfl h
      | letter hl =>
          have hall : ∀ p ∈ escapeLetters, isWordsChar p.2 = false := by decide
          exact hall _ hl
      | number hn =>
          have hall : ∀ n < 32, isWordsChar (Char.ofNat n) = false := by decide
          have h := hall c.toNat hn
          rwa [Char.ofNat_toNat] at h

theorem flatMap_escape_eq {cs : List Char} (h : ∀ c ∈ cs, escape c = [c]) :
    cs.flatMap escape = cs := by
  induction cs with
  | nil => rfl
  | cons c cs ih =>
      rw [List.flatMap_cons, h c (by simp), ih fun x hx => h x (List.mem_cons_of_mem _ hx)]
      rfl

theorem text_of_read {input : ByteArray} {s : Scalar} (h : Words.read s.text = .str s.text) :
    Resolve.text input s = .str s.text := by
  unfold Resolve.text
  split
  · split
    · rfl
    · exact h
  · rfl

/-- Where a text is written as it is, the quote is right in front of it. -/
theorem text_of_literal {text : List Char} {s : String} {t : Token}
    (he : ∀ c ∈ s.toList, escape c = [c]) (hc : Covers text t (writeString s [])) :
    Resolve.text (String.ofList text).toUTF8
      ⟨none, .doubleQuoted, s, t.start.offset, t.stop.offset⟩ = .str s := by
  obtain ⟨done, rest, ht, hstart, hstop⟩ := hc
  have hw : writeString s [] = '"' :: (s.toList ++ ['"']) := by
    rw [writeString, flatMap_escape_eq he]
  have hq : Char.utf8Size '"' = 1 := by decide
  have htext : text = (done ++ ['"']) ++ (s.toList ++ '"' :: rest) := by
    rw [ht, hw]
    simp
  have hoffset : t.stop.offset = bytes (done ++ ['"']) + bytes s.toList + 1 := by
    rw [hstop, hw]
    simp [bytes, hq]
    omega
  rw [htext, hoffset, text_of_part rfl _ _ s (by rw [hstart, bytes_append]; omega),
    List.getLast?_concat]
  rfl

/-- The scalar of a written string is the string that folding makes of it. -/
theorem text_quoted {text : List Char} {s : String} {u : List Char} {t : Token}
    (hs : refold? s.toList = some u) (hc : Covers text t (writeString s [])) :
    Resolve.text (String.ofList text).toUTF8
      ⟨none, .doubleQuoted, String.ofList u, t.start.offset, t.stop.offset⟩ =
      .str (String.ofList u) := by
  by_cases hsoft : ∃ c ∈ s.toList, isSoft c = true
  · obtain ⟨c, hm, hr⟩ := refold?_soft s.toList hs hsoft
    exact text_of_read
      (read_of_not_word (c := c) (by rwa [String.toList_ofList]) (isWordsChar_of_isGap hr))
  · have hsome : refold? s.toList = some s.toList := refold?_of_not_soft fun c hm => by
      simpa using fun h => hsoft ⟨c, hm, h⟩
    rw [hsome] at hs
    cases hs
    rw [String.ofList_toList]
    by_cases he : ∀ c ∈ s.toList, escape c = [c]
    · exact text_of_literal he hc
    · obtain ⟨c, hm, hne⟩ : ∃ c ∈ s.toList, escape c ≠ [c] := by simpa using he
      exact text_of_read (read_of_not_word hm (isWordsChar_of_escaped hne))

theorem scalar_quoted {text : List Char} {s : String} {u : List Char} {t : Token}
    (hs : refold? s.toList = some u) (hc : Covers text t (writeString s [])) :
    Resolve.scalar (String.ofList text).toUTF8
      ⟨none, .doubleQuoted, String.ofList u, t.start.offset, t.stop.offset⟩ =
      .ok (.str (String.ofList u)) := by
  rw [← text_quoted hs hc]
  rfl

/-! ## Words and numbers -/

theorem scalar_plain {input : ByteArray} {text : String} {t : Tree}
    (h : Resolve.plain? text = some t) (start stop : Nat) :
    Resolve.scalar input ⟨none, .plain, text, start, stop⟩ = .ok t := by
  simp [Resolve.scalar, Resolve.isOpen, Resolve.untagged, h]

theorem plain?_bool (b : Bool) : Resolve.plain? (boolText b) = some (.bool b) := by
  cases b <;> rfl

theorem sign_digits {ds : List Char} (h : Double.IsDigits ds) : Digits.sign ds = (false, ds) := by
  cases ds with
  | nil => exact absurd rfl h.ne_nil
  | cons d ds =>
      have hd := h.digit d (by simp)
      unfold Digits.sign
      split
      · rename_i heq; simp only [List.cons.injEq] at heq; rw [heq.1] at hd; cases hd
      · rename_i heq; simp only [List.cons.injEq] at heq; rw [heq.1] at hd; cases hd
      · rfl

theorem base_digits {ds : List Char} (h : Double.IsDigits ds) : Resolve.base ds = (10, ds) := by
  unfold Resolve.base
  split
  · exact absurd (h.digit 'x' (by simp)) (by decide)
  · exact absurd (h.digit 'o' (by simp)) (by decide)
  · exact absurd (h.digit 'b' (by simp)) (by decide)
  · rfl

/-- A number without leading zeros, with or without a sign. -/
theorem isZeroLed_whole {ds cs : List Char} (h : Double.IsWhole ds) (hs : (Digits.sign cs).2 = ds) :
    Resolve.isZeroLed cs = false := by
  unfold Resolve.isZeroLed
  rw [hs]
  split
  · rcases h.lead with hl | hl
    · exact absurd rfl hl
    · simp at hl
  · rfl

theorem integer?_int (n : Int) : Resolve.integer? (intText n).toList = some n := by
  have hw := isWhole_toDigits n.natAbs
  have hn := Digits.number?_ten hw.ne_nil hw.digit
  rw [Digits.number_toDigits] at hn
  rw [toList_intText]
  split
  · rename_i hneg
    have hz : Resolve.isZeroLed ('-' :: Nat.toDigits 10 n.natAbs) = false := isZeroLed_whole hw rfl
    have hv : Digits.signed true n.natAbs = n := by simp only [Digits.signed, if_true]; omega
    simp [Resolve.integer?, Digits.sign, base_digits hw.toIsDigits, hz, hn, hv]
  · rename_i hneg
    have hs := sign_digits hw.toIsDigits
    have hz : Resolve.isZeroLed (Nat.toDigits 10 n.natAbs) = false :=
      isZeroLed_whole hw (by rw [hs])
    have hv : Digits.signed false n.natAbs = n := by
      simp only [Digits.signed, Bool.false_eq_true, if_false]; omega
    simp [Resolve.integer?, hs, base_digits hw.toIsDigits, hz, hn, hv]

/-- A text with the first character of a number is neither null nor a boolean. -/
theorem plain?_number {text : String} {c : Char} {cs : List Char} (h : text.toList = c :: cs)
    (hc : startsNumber c = true ∨ c = '+') : Resolve.plain? text =
      match Resolve.int? text.toList with
      | some t => some t
      | none =>
          if Resolve.isZeroLed text.toList then none else (Resolve.float? text).map .float := by
  have hne : ∀ w ∈
      ["", "null", "Null", "NULL", "~", "true", "True", "TRUE", "false", "False", "FALSE"],
      text ≠ w := by
    rintro w hw rfl
    have hall : ∀ w ∈
        ["", "null", "Null", "NULL", "~", "true", "True", "TRUE", "false", "False", "FALSE"],
        (w.toList.head?.any fun c => startsNumber c || c == '+') = false := by decide
    have := hall _ hw
    rw [h] at this
    rcases hc with hc | rfl
    · simp [hc] at this
    · simp at this
  simp only [List.forall_mem_cons] at hne
  obtain ⟨h₁, h₂, h₃, h₄, h₅, h₆, h₇, h₈, h₉, h₁₀, h₁₁, _⟩ := hne
  have hnull : Resolve.isNull text = false := by simp [Resolve.isNull, h₂, h₃, h₄, h₅]
  have hbool : Resolve.bool? text = none := by simp [Resolve.bool?, h₆, h₇, h₈, h₉, h₁₀, h₁₁]
  cases hi : Resolve.int? text.toList <;> simp [Resolve.plain?, h₁, hnull, hbool, hi]

theorem plain?_int {n : Int} (h : Resolve.fits 64 n = true) :
    Resolve.plain? (intText n) = some (.int n) := by
  obtain ⟨c, cs, hn, hc⟩ := startsNumber_intText n []
  rw [List.append_nil] at hn
  rw [plain?_number hn (Or.inl hc), Resolve.int?, integer?_int]
  simp [Resolve.ofInteger?, h]

end BootConfig.Yaml
