import BootConfig.Proofs.Yaml.Shown
import BootConfig.Proofs.Yaml.Styled

/-!
# Texts of one word

A text that is nothing but a word is read as what the word means. So is an octal number whose
magnitude fits into 63 bits; one with more stays a text, even where the number itself fits.
-/

namespace BootConfig.Yaml

open Steps
open Lexer (between)
open Scan (IsWord)

/-! ## Tokens -/

theorem isAllowed_of_isWordChar {c : Char} (h : Scan.isWordChar c = true) : isAllowed c = true := by
  have hsmall : 0x20 ≤ c.toNat ∧ c.toNat ≤ 0x7E := by
    change (decide (65 ≤ c.val ∧ c.val ≤ 90) || 97 ≤ c.val && c.val ≤ 122 || 48 ≤ c.val && c.val ≤
        57 || c == '-' || c == '+' ||
      c == '.' || c == '_') = true at h
    simp only [Bool.or_eq_true, beq_iff_eq, Bool.and_eq_true, decide_eq_true_eq,
      UInt32.le_iff_toNat_le] at h
    rcases h with ((((((⟨h, h'⟩ | ⟨h, h'⟩) | ⟨h, h'⟩) | rfl) | rfl) | rfl) | rfl)
    all_goals first | decide | exact ⟨Nat.le_trans (by decide) h, Nat.le_trans h' (by decide)⟩
  simp [isAllowed, hsmall]

theorem Scan.IsWord.not_break {word : List Char} (hw : IsWord word) {c : Char} (hc : c ∈ word) :
    isBreak c = false := by
  have hg := (Scan.isWordChar_not (hw.chars c hc)).1
  rw [isGap, Bool.or_eq_false_iff] at hg
  exact hg.2

/-- A word is one token, up to the end of the text. -/
theorem step_whole_word {word : List Char} (hw : IsWord word) (tokens : List Token) :
    ∃ pending keyAllowed, Placed word [] (Mark.start.past word) (word.length + 1) pending ∧
      Lex.step (between word .start (word.length + 1) 0 [] true tokens) =
        .ok ((), between [] (Mark.start.past word) (word.length + 1) 0 pending keyAllowed
          (⟨.scalar .plain (String.ofList word), .start, Mark.start.past word⟩ :: tokens)) := by
  obtain ⟨c, more, rfl⟩ := List.exists_cons_of_ne_nil hw.ne_nil
  have hnone : Optional [] := fun _ h => absurd h List.not_mem_nil
  have hat : Lex.AtToken (c :: more) := by
    simpa [Lex.AtToken] using Lex.startsToken_word hw (List.append_nil _)
  have hp : Placed (c :: more) (c :: more ++ ([] ++ [])) .start ((c :: more).length + 1) [] :=
    ⟨⟨[], by simp, rfl⟩, Nat.lt_succ_self _, hnone, fun _ h => absurd h List.not_mem_nil⟩
  obtain ⟨ka, _, hs⟩ :=
    Lex.step_between .start ((c :: more).length + 1) 0 true tokens Lex.isGapText_nil hat hnone
      (Nat.succ_pos _)
  obtain ⟨pending, ka', hfrom, hplain⟩ :=
    Lex.plainScalar_between hw Lex.isGapText_nil (.nil : Scan.Ends (0 != 0) []) hp ka tokens
  simp only [List.append_nil] at hplain
  have ht :=
    (Lex.tokenAt_word hw (List.append_nil _) .start ((c :: more).length + 1) 0 [] ka tokens).trans
      hplain
  have hp' : Placed (c :: more) [] (Mark.start.past (c :: more)) ((c :: more).length + 1) pending :=
    .past (c :: more) hp hfrom
  exact ⟨_, ka', hp'.sub fun k hk => Or.inl (List.mem_filter.mp hk).1, (Lex.step_ok hs ht hp').1⟩

/-- The word is the only token between the start and the end. -/
theorem tokens_word {word : List Char} (hw : IsWord word) :
    ∃ start stop, Tokens.ofText word =
      ⟨[start, ⟨.scalar .plain (String.ofList word), .start, Mark.start.past word⟩, stop], none⟩ ∧
      stop.kind = .streamEnd := by
  have hs₁ := step_start_eq fun x hx => isAllowed_of_isWordChar (hw.chars x hx)
  obtain ⟨pending, ka, hp, hs₂⟩ := step_whole_word hw [⟨.streamStart, .start, .start⟩]
  have hcol : (Mark.start.past word).column ≠ 0 := by
    obtain ⟨c, more, rfl⟩ := List.exists_cons_of_ne_nil hw.ne_nil
    have h : ((Mark.start.past (c :: more)).column == 0) = _ := Scan.column_past c .start
    rw [hw.not_break (List.getLast_mem _)] at h
    simpa using h
  obtain ⟨m', hs₃⟩ := step_end_of_line hp hcol ka
    [⟨.scalar .plain (String.ofList word), .start, Mark.start.past word⟩,
    ⟨.streamStart, .start, .start⟩]
  refine ⟨⟨.streamStart, .start, .start⟩, ⟨.streamEnd, m', m'⟩, ?_, rfl⟩
  obtain ⟨n, hn⟩ := Nat.exists_eq_add_one_of_ne_zero (mt List.length_eq_zero_iff.mp hw.ne_nil)
  have hrun : Lexer.run (word.length + 2) (.ofText word) =
      ({ between [] m' (word.length + 1) 0 [] false [⟨.streamEnd, m', m'⟩,
        ⟨.scalar .plain (String.ofList word), .start, Mark.start.past word⟩,
        ⟨.streamStart, .start, .start⟩] with ended := true }, none) := by
    rw [hn, Lexer.run, if_neg (by simp [Lexer.ofText]), hs₁]
    change Lexer.run (n + 2)
      (between word .start (word.length + 1) 0 [] true [⟨.streamStart, .start, .start⟩]) = _
    rw [Lexer.run, if_neg (by simp [between]), hs₂]
    change Lexer.run (n + 1) (between [] _ _ 0 pending ka _) = _
    rw [Lexer.run, if_neg (by simp [between]), hs₃, ← hn]
    exact run_ended rfl n
  unfold Tokens.ofText
  rw [hrun]
  rfl

/-! ## Trees -/

theorem gather_of_meant {t : Tree} (h : Meant t) : t.gather = t ∧ t.depth = 0 := by
  cases h <;> exact ⟨rfl, rfl⟩

theorem read_word {text : String} (hw : IsWord text.toList) :
    read text = .ok ((Resolve.plain? text).getD (Words.read text)) := by
  obtain ⟨start, stop, htokens, hstop⟩ := tokens_word hw
  have hscalar : Resolve.scalar text.toUTF8 ⟨none, .plain, text, 0, bytes text.toList⟩ =
      .ok ((Resolve.plain? text).getD (Words.read text)) := by
    have htext := @text_of_part .plain 0 0 none rfl [] [] text (Nat.le_refl 0)
    simp only [bytes, List.nil_append, List.append_nil, String.ofList_toList, Nat.zero_add,
      Nat.add_zero] at htext
    simp only [Resolve.scalar, Resolve.isOpen, Resolve.untagged, Option.bind_none, decide_true,
      Bool.and_self, if_true]
    rw [htext]
    rfl
  have hspell : Spells text.toUTF8 .null ((Resolve.plain? text).getD (Words.read text))
      [⟨.scalar .plain (String.ofList text.toList), .start, Mark.start.past text.toList⟩] := by
    refine @Spells.scalar _ _ _ .plain _ ⟨text, by rw [String.ofList_toList], ?_⟩ fun _ => trivial
    rw [Mark.offset_past]
    simpa only [Mark.start, Nat.zero_add] using hscalar
  obtain ⟨items, hshows, hdoc⟩ := document_of_tokens start hspell trivial hstop
  obtain ⟨hgather, hdepth⟩ := gather_of_meant (Resolve.scalar_meant hscalar)
  have hroot := Build.root_shown hshows (by rw [hdepth]; exact Nat.zero_le _)
  unfold read Source.ofText Document.ofText
  rw [htokens]
  rw [List.singleton_append] at hdoc
  rw [hdoc, hroot, hgather]

/-! ## Octal numbers -/

namespace Words

/-- What a text of the form of an octal number is read as: a number with its magnitude below
`2 ^ 63`, or itself. -/
def octalTree (text : String) (sign ds : List Char) : Tree :=
  if 2 ^ 63 ≤ magnitude ds then .str text
  else .int (if sign = ['-'] then -(magnitude ds : Int) else magnitude ds)

namespace OctalForm

variable {text : String} {sign ds : List Char}

theorem read_eq (h : OctalForm text.toList sign ds) : Words.read text = octalTree text sign ds := by
  unfold octalTree
  split
  · rename_i hb
    exact read_eq_str_iff.mpr ⟨rfl, h.switch?_eq, by rw [h.octal?_eq, if_pos hb]⟩
  · rename_i hb
    exact read_eq_int_iff.mpr (by rw [h.octal?_eq, if_neg hb])

theorem isWord (h : OctalForm text.toList sign ds) : IsWord text.toList := by
  have hds : ∀ d ∈ ds, Scan.isWordChar d = true := fun d hd => by
    rcases h.digits d hd with rfl | hd
    · rfl
    · simp [Scan.isWordChar, Char.isAlphanum, (isDigit_octal hd).1]
  have hs := h.sign
  rw [h.text]
  simp only [List.mem_cons, List.not_mem_nil, or_false] at hs
  rcases hs with rfl | rfl | rfl
  · exact .word rfl hds
  · exact .word rfl (List.forall_mem_cons.mpr ⟨rfl, hds⟩)
  · exact .signed rfl hds

end OctalForm

end Words

theorem read_octal {text : String} {sign ds : List Char} (h : Words.OctalForm text.toList sign ds) :
    read text = .ok (Words.octalTree text sign ds) := by
  rw [read_word h.isWord, h.plain?_eq, h.read_eq]
  rfl

/-- The number -2^63 would fit, but its magnitude does not. -/
example :
    (read "-01000000000000000000000").toOption.any (·.same (.str "-01000000000000000000000")) =
    true := by decide +kernel

theorem read_plain_octals {text : String} {t : Tree} (h : read text = .ok t) :
    (Document.ofText text.toList).Means
      (fun c v => c.tag = none → c.style = .plain →
        ∀ sign ds, Words.OctalForm c.text.toList sign ds →
          v = Words.octalTree c.text sign ds) t := by
  apply read_means h
  intro c v hevent hv htag hstyle sign ds ho
  obtain ⟨e, he, hw⟩ := hevent
  rw [scalar_of_plain h he hw htag hstyle, ho.plain?_eq, Option.getD_none, ho.read_eq] at hv
  exact (Except.ok.inj hv).symm

end BootConfig.Yaml
