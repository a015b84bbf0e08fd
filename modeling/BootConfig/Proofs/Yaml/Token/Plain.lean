import BootConfig.Proofs.Yaml.Token.Quoted
import BootConfig.Yaml.Token.Plain

/-!
# Written words as plain scalars

The words and numbers of the output are read as plain scalars of one run, which take the gap behind
them along.
-/

namespace BootConfig.Yaml.Scan

open Steps

variable {more : List Char} {began m : Mark} {b fuel : Nat} {acc : List Char} {inFlow : Bool}

/-- The characters of words and numbers. -/
def isWordChar (c : Char) : Bool := c.isAlphanum || c == '-' || c == '+' || c == '.' || c == '_'

theorem isWordChar_not {c : Char} (h : isWordChar c = true) :
    isGap c = false ∧ isFlowIndicator c = false ∧ c ≠ ':' ∧ c ≠ '#' := by
  have hne : ∀ d, isWordChar d = false → (c == d) = false := fun d hd =>
    beq_false_of_ne (by rintro rfl; rw [h] at hd; cases hd)
  refine ⟨?_, ?_, (by rintro rfl; cases h), (by rintro rfl; cases h)⟩
  · simp [isGap, isBlank, isBreak, hne ' ' rfl, hne '\t' rfl, hne '\n' rfl, hne '\r' rfl,
      hne nextLine rfl, hne lineSeparator rfl, hne paragraphSeparator rfl]
  · simp [isFlowIndicator, hne ',' rfl, hne '[' rfl, hne ']' rfl, hne '{' rfl, hne '}' rfl]

/-- What stands behind a word and its gap: nothing, or what ends an entry of a collection. -/
inductive Ends (inFlow : Bool) : List Char → Prop where
  | nil : Ends inFlow []
  | cons {c : Char} (hf : inFlow = true) (hc : c = ',' ∨ c = ']' ∨ c = '}') (rest : List Char) :
      Ends inFlow (c :: rest)

theorem Ends.not_gap {rest : List Char} (h : Ends inFlow rest) :
    atGap rest.head? = false ∧ rest.head?.all (!isGap ·) = true := by
  cases h with
  | nil => exact ⟨rfl, rfl⟩
  | cons _ hc _ => rcases hc with rfl | rfl | rfl <;> exact ⟨rfl, rfl⟩

theorem Ends.not_mark {rest : List Char} (h : Ends inFlow rest) :
    (Cursor.mk rest m none b).atDocumentMark = false := by
  refine Cursor.not_atDocumentMark fun x more hr => ?_
  cases h with
  | nil => cases hr
  | cons _ hc _ =>
      cases hr
      rcases hc with rfl | rfl | rfl <;> decide

theorem Ends.not_comment {rest : List Char} (h : Ends inFlow rest) : rest.head? ≠ some '#' := by
  cases h with
  | nil => simp
  | cons _ hc _ => rcases hc with rfl | rfl | rfl <;> simp

theorem plainRun_ends {rest : List Char} (h : Ends inFlow rest) :
    plainRun inFlow began (fuel + 1) acc ⟨rest, m, none, b⟩ = .ok (acc, ⟨rest, m, none, b⟩) := by
  cases h with
  | nil => simp [plainRun, bind_apply]
  | @cons c hf hc rest =>
      have hg : isGap c = false := by rcases hc with rfl | rfl | rfl <;> rfl
      have hi : isFlowIndicator c = true := by rcases hc with rfl | rfl | rfl <;> rfl
      have hn : c ≠ ':' := by rcases hc with rfl | rfl | rfl <;> decide
      simp [plainRun, bind_apply, hg, hi, hn, hf]

theorem plainRun_word (began m : Mark) (b : Nat) (acc : List Char) {word rest : List Char}
    (hw : ∀ c ∈ word, isWordChar c = true)
    (hr : rest.head?.any isGap = true ∨ Ends inFlow rest) (hf : word.length < fuel) :
    plainRun inFlow began fuel acc ⟨word ++ rest, m, none, b⟩ =
      .ok (word.reverse ++ acc, ⟨rest, m.past word, none, b⟩) := by
  induction word generalizing fuel acc m with
  | nil =>
      obtain ⟨fuel, rfl⟩ : ∃ n, fuel = n + 1 := ⟨fuel - 1, by simp at hf; omega⟩
      rcases hr with hr | hr
      · cases rest with
        | nil => cases hr
        | cons c rest =>
            have hc : isGap c = true := by simpa using hr
            simp [plainRun, bind_apply, hc]
      · exact plainRun_ends hr
  | cons c word ih =>
      obtain ⟨fuel, rfl⟩ : ∃ n, fuel = n + 1 := ⟨fuel - 1, by simp at hf; omega⟩
      obtain ⟨hg, hi, hn, _⟩ := isWordChar_not (hw c (by simp))
      have hb : isBreak c = false := by rw [isGap, Bool.or_eq_false_iff] at hg; exact hg.2
      have hw' :=
        ih (m.next c) (c :: acc) (fun x hx => hw x (List.mem_cons_of_mem _ hx)) (by simpa using hf)
      simp [plainRun, bind_apply, hg, hi, hn, hw', Mark.after_of_not hb]

/-- The characters that words begin with, and numbers without a minus. -/
def startsWord (c : Char) : Bool := c == 'n' || c == 't' || c == 'f' || c == '+' || c.isDigit

/-- A word, or a number with digits behind its minus. -/
inductive IsWord : List Char → Prop where
  | word {c : Char} {cs : List Char} (hc : startsWord c = true)
      (h : ∀ x ∈ cs, isWordChar x = true) : IsWord (c :: cs)
  | signed {c : Char} {cs : List Char} (hc : c.isDigit = true) (h : ∀ x ∈ cs, isWordChar x = true) :
      IsWord ('-' :: c :: cs)

theorem isWordChar_of_startsWord {c : Char} (h : startsWord c = true) : isWordChar c = true := by
  simp only [startsWord, Bool.or_eq_true, beq_iff_eq] at h
  rcases h with (((rfl | rfl) | rfl) | rfl) | h
  · rfl
  · rfl
  · rfl
  · rfl
  · simp [isWordChar, Char.isAlphanum, h]

theorem IsWord.chars {word : List Char} (h : IsWord word) : ∀ c ∈ word, isWordChar c = true := by
  cases h with
  | word hc h => exact List.forall_mem_cons.mpr ⟨isWordChar_of_startsWord hc, h⟩
  | signed hc h =>
      exact List.forall_mem_cons.mpr ⟨rfl,
        List.forall_mem_cons.mpr ⟨by simp [isWordChar, Char.isAlphanum, hc], h⟩⟩

theorem IsWord.ne_nil {word : List Char} (h : IsWord word) : word ≠ [] := by
  cases h <;> simp

theorem IsWord.noMark {word : List Char} (h : IsWord word) (rest : List Char) (m : Mark) (b : Nat) :
    (Cursor.mk (word ++ rest) m none b).atDocumentMark = false := by
  cases h with
  | word hc _ =>
      refine Cursor.not_atDocumentMark fun x more hr => ?_
      cases hr
      exact ⟨(by rintro rfl; cases hc), (by rintro rfl; cases hc)⟩
  | signed hc _ =>
      -- a digit and not a second dash
      refine Bool.eq_false_iff.mpr fun hmark => ?_
      obtain ⟨_, x, more, _, _, hr⟩ := Cursor.atDocumentMark_iff.mp hmark
      obtain ⟨rfl, hr⟩ := List.cons.inj hr
      obtain ⟨rfl, _⟩ := List.cons.inj hr
      cases hc

theorem isGap_of_filler {c : Char} (h : isFiller c = true) : isGap c = true := by
  simp only [isFiller, Bool.or_eq_true] at h
  simp only [isGap, isBlank, isBreak, Bool.or_eq_true]
  rcases h with (((h | h) | h) | h) | h <;> simp [h]

/-- Behind the gap of a word nothing is added to it. -/
theorem plainLines_ends (began m : Mark) (acc : List Char) {rest : List Char}
    (hr : Ends inFlow rest) (stop : Mark) (gap : Gap) (hb : 0 < b) (hf : 0 < fuel) :
    plainLines inFlow 0 began fuel acc stop gap ⟨rest, m, none, b⟩ =
      .ok ((acc, stop, gap.broken), ⟨rest, m, none, b⟩) := by
  obtain ⟨b, rfl⟩ : ∃ n, b = n + 1 := ⟨b - 1, by omega⟩
  obtain ⟨fuel, rfl⟩ : ∃ n, fuel = n + 1 := ⟨fuel - 1, by omega⟩
  simp [plainLines, bind_apply, hr.not_mark, hr.not_comment, plainRun_ends hr, hr.not_gap]

theorem plainLines_word (began m : Mark) {word gap rest : List Char} (hw : IsWord word)
    (hg : ∀ c ∈ gap, isFiller c = true)
    (hr : Ends inFlow rest) (hb : (word ++ gap).length < b) (stop : Mark) (hf : 1 < fuel) :
    plainLines inFlow 0 began fuel [] stop .empty ⟨word ++ (gap ++ rest), m, none, b⟩ =
      .ok ((word.reverse, m.past word, (gap.foldl Gap.add .empty).broken),
      ⟨rest, (m.past word).past gap, none, b⟩) := by
  obtain ⟨fuel, rfl⟩ : ∃ n, fuel = n + 1 := ⟨fuel - 1, by omega⟩
  have hm := hw.noMark (gap ++ rest) m b
  have hlen : word.length < b := by simp at hb; omega
  obtain ⟨c, word', rfl⟩ := List.exists_cons_of_ne_nil hw.ne_nil
  have hc : c ≠ '#' := (isWordChar_not (hw.chars c (by simp))).2.2.2
  cases gap with
  | nil =>
      have hrun := plainRun_word began m b [] hw.chars (Or.inr hr) hlen
      simp only [List.nil_append, List.cons_append] at hm hrun ⊢
      simp [plainLines, bind_apply, hm, hc, hrun, hr.not_gap, Gap.text, Gap.empty]
  | cons x gap =>
      have hx := isGap_of_filler (hg x (by simp))
      have hany : (x :: gap ++ rest).head?.any isGap = true := by simpa using hx
      have hrun := plainRun_word began m b [] hw.chars (Or.inl hany : _ ∨ Ends inFlow _) hlen
      have hgap := extendGap_gap began (m.past (c :: word')) b hg hr.not_gap.2 .empty .plainScalar
        (show (x :: gap).length < b by simp at hb ⊢; omega)
      have hends :=
        plainLines_ends began ((m.past (c :: word')).past (x :: gap)) (c :: word').reverse hr
        (m.past (c :: word')) ((x :: gap).foldl Gap.add .empty) (show 0 < b by omega)
          (show 0 < fuel by omega)
      simp only [List.cons_append] at hm hrun hgap ⊢
      have htext : Gap.empty.text = [] := rfl
      simp [plainLines, bind_apply, hm, hc, hrun, hx, atGap, htext] at hgap hends ⊢
      simp [hgap, hends]

/-- The token of a word, and the place behind its gap. -/
theorem plain_word {word gap rest : List Char} (hw : IsWord word)
    (hg : ∀ c ∈ gap, isFiller c = true) (hr : Ends inFlow rest) (hb : (word ++ gap).length < b) :
    plain inFlow 0 ⟨word ++ (gap ++ rest), m, none, b⟩ =
      .ok ((⟨.scalar .plain (String.ofList word), m, m.past word⟩,
        (gap.foldl Gap.add .empty).broken), ⟨rest, (m.past word).past gap, none, b⟩) := by
  have hlen : 1 < b := by
    have := List.length_pos_iff.mpr hw.ne_nil
    simp only [List.length_append] at hb
    omega
  have hl := plainLines_word m m hw hg hr hb m hlen
  simp [plain, bind_apply, map_apply, hl]

end BootConfig.Yaml.Scan
