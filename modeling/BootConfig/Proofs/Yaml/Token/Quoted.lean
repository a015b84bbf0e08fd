import BootConfig.Proofs.Json.Strings
import BootConfig.Proofs.Yaml.Cursor
import BootConfig.Yaml.Token.Quoted

/-!
# Written strings as quoted scalars

A string of the output is read as a scalar in double quotes. Its escapes come back as they are;
folding changes spaces and the breaks that are not escaped, and a line of its own that begins like a
document mark is refused.
-/

namespace BootConfig.Yaml

open Steps

/-! ## Folding -/

/-- The characters of a gap that are written as they are. -/
def isSoft (c : Char) : Bool :=
  c == ' ' || c == nextLine || c == lineSeparator || c == paragraphSeparator

def Gap.add (g : Gap) (c : Char) : Gap :=
  if c == ' ' then g.addBlank c else g.addBreak [Scan.breakText c]

/-- Whether a document would end or begin here at the start of a line. -/
def isDocumentMark : List Char → Bool
  | x :: y :: z :: w :: _ => (x == '-' || x == '.') && y == x && z == x && isSoft w
  | _ => false

mutual

/-- The text that a written string is read as. -/
def refold? : List Char → Option (List Char)
  | [] => some []
  | c :: cs =>
      if isSoft c then refoldGap? (Gap.empty.add c) (isBreak c) cs else (refold? cs).map (c :: ·)

/-- The text from within a gap; the flag says that the gap ends with a break. -/
def refoldGap? (g : Gap) (atStart : Bool) : List Char → Option (List Char)
  | [] => some g.text.reverse
  | c :: cs =>
    if isSoft c then refoldGap? (g.add c) (isBreak c) cs
    else if atStart && isDocumentMark (c :: cs) then none
    else (refold? cs).map fun text => g.text.reverse ++ c :: text

end

theorem refold?_run {run : List Char} (h : ∀ c ∈ run, isSoft c = false) (cs : List Char) :
    refold? (run ++ cs) = (refold? cs).map (run ++ ·) := by
  induction run with
  | nil => simp
  | cons c run ih =>
      have hrun := ih (fun x hx => h x (List.mem_cons_of_mem _ hx))
      rw [List.cons_append, refold?, h c (by simp), if_neg (by simp), hrun, Option.map_map]
      rfl

/-- Where a gap with the given last character ends. -/
theorem refoldGap?_gap {gap cs : List Char} (h : ∀ c ∈ gap, isSoft c = true)
    (hcs : cs.head?.all (!isSoft ·)) (g : Gap) (last : Char) :
    refoldGap? g (isBreak last) (gap ++ cs) =
      if isBreak ((last :: gap).getLast (by simp)) && isDocumentMark cs then none
      else (refold? cs).map ((gap.foldl Gap.add g).text.reverse ++ ·) := by
  induction gap generalizing g last with
  | nil =>
      cases cs with
      | nil => simp [refoldGap?, refold?, isDocumentMark]
      | cons c cs =>
          have hc : isSoft c = false := by simpa using hcs
          simp only [List.nil_append, refoldGap?, hc, refold?]
          split
          · simp_all
          · simp_all [Function.comp_def]
  | cons c gap ih =>
      rw [List.cons_append, refoldGap?, if_pos (h c (by simp)),
        ih (fun x hx => h x (List.mem_cons_of_mem _ hx))]
      simp

/-! ## Runs -/

namespace Scan

open Json

variable {more : List Char} {began m : Mark} {b fuel : Nat} {acc : List Char}

theorem isGap_of_plain {c : Char} (h : 32 ≤ c.toNat) : isGap c = isSoft c := by
  have ht : (c == '\t') = false := beq_false_of_ne (by rintro rfl; revert h; decide)
  have hn : (c == '\n') = false := beq_false_of_ne (by rintro rfl; revert h; decide)
  have hr : (c == '\r') = false := beq_false_of_ne (by rintro rfl; revert h; decide)
  simp only [isGap, isBlank, isBreak, isSoft, ht, hn, hr, Bool.or_assoc, Bool.or_false,
    Bool.false_or]

theorem isBreak_of_not_soft {c : Char} (h : 32 ≤ c.toNat) (hs : isSoft c = false) :
    isBreak c = false := by
  have hg := isGap_of_plain h
  rw [hs, isGap, Bool.or_eq_false_iff] at hg
  exact hg.2

theorem simpleEscape?_of_letter {x c : Char} (h : (x, c) ∈ escapeLetters) :
    simpleEscape? x = some c := by
  have hall : ∀ p ∈ escapeLetters, simpleEscape? p.1 = some p.2 := by decide
  exact hall _ h

theorem isBreak_of_letter {x c : Char} (h : (x, c) ∈ escapeLetters) : isBreak x = false := by
  have hall : ∀ p ∈ escapeLetters, isBreak p.1 = false := by decide
  exact hall _ h

theorem isBreak_lowerHex : ∀ d < 16, isBreak (Digits.lowerHex d) = false := by decide

theorem hexChar_written {c : Char} (h : c.toNat < 32) :
    hexChar 4 began
        ⟨'0' :: '0' :: Digits.lowerHex (c.toNat / 16) :: Digits.lowerHex (c.toNat % 16) :: more, m,
          none, b⟩ =
      .ok (c,
        ⟨more, m.past ['0', '0', Digits.lowerHex (c.toNat / 16), Digits.lowerHex (c.toNat % 16)],
          none, b⟩) := by
  have hn := Digits.number?_hex (show c.toNat < 256 by omega)
  have h₁ := isBreak_lowerHex (c.toNat / 16) (by omega)
  have h₂ := isBreak_lowerHex (c.toNat % 16) (by omega)
  have h₃ : isBreak '0' = false := rfl
  have hv : ¬(0xD800 ≤ c.toNat ∧ c.toNat ≤ 0xDFFF) := by omega
  have hv' : ¬0x10FFFF < c.toNat := by omega
  simp [hexChar, bind_apply, map_apply, hn, hv, hv', Mark.after, h₁, h₂, h₃, -List.length_take]

theorem quotedRun_escape {c : Char} (h : isSoft c = false) :
    quotedRun false began (fuel + 1) acc ⟨escape c ++ more, m, none, b⟩ =
      quotedRun false began fuel (c :: acc) ⟨more, m.past (escape c), none, b⟩ := by
  have he := escaped c
  cases hw : escape c with
  | nil => exact absurd hw (escape_ne_nil c)
  | cons x w =>
      rw [hw] at he
      cases he with
      | itself h32 hq hb =>
          have hg := isGap_of_plain h32
          rw [h] at hg
          simp [quotedRun, bind_apply, hg, hq, hb, Mark.after_of_not (isBreak_of_not_soft h32 h)]
      | @letter x hl =>
          have hx : atBreak (some x) = false := isBreak_of_letter hl
          have hs : isBreak '\\' = false := rfl
          have hg : isGap '\\' = false := rfl
          simp [quotedRun, escapedBy, bind_apply, map_apply, hg, hx, simpleEscape?_of_letter hl,
            Mark.after, hs, isBreak_of_letter hl]
      | number hn =>
          have hu : isBreak 'u' = false := rfl
          have hs : isBreak '\\' = false := rfl
          have hg : isGap '\\' = false := rfl
          simp [quotedRun, escapedBy, bind_apply, hg, atBreak, hu, simpleEscape?, escapeDigits?,
            hexChar_written hn, Mark.after, hs]

theorem quotedRun_run (began m : Mark) (b : Nat) (acc more : List Char) {run : List Char}
    (h : ∀ c ∈ run, isSoft c = false) {c : Char} (hc : isGap c = true ∨ c = '"')
    (hf : run.length < fuel) :
    quotedRun false began fuel acc ⟨run.flatMap escape ++ c :: more, m, none, b⟩ =
      .ok ((run.reverse ++ acc, false), ⟨c :: more, m.past (run.flatMap escape), none, b⟩) := by
  induction run generalizing fuel acc m with
  | nil =>
      obtain ⟨fuel, rfl⟩ : ∃ n, fuel = n + 1 := ⟨fuel - 1, by simp at hf; omega⟩
      rcases hc with hc | rfl
      · simp [quotedRun, bind_apply, hc]
      · have hq : isGap '"' = false := rfl
        simp [quotedRun, bind_apply, hq]
  | cons x run ih =>
      obtain ⟨fuel, rfl⟩ : ∃ n, fuel = n + 1 := ⟨fuel - 1, by simp at hf; omega⟩
      rw [List.flatMap_cons, List.append_assoc, quotedRun_escape (h x (by simp)),
        ih _ _ (fun y hy => h y (List.mem_cons_of_mem _ hy)) (by simpa using hf), Mark.past_append]
      simp

/-! ## Gaps -/

/-- The characters of a gap, without those that the output never has. -/
def isFiller (c : Char) : Bool :=
  c == ' ' || c == '\n' || c == nextLine || c == lineSeparator || c == paragraphSeparator

theorem isFiller_of_soft {c : Char} (h : isSoft c = true) : isFiller c = true := by
  simp only [isSoft, Bool.or_eq_true] at h
  simp only [isFiller, Bool.or_eq_true]
  rcases h with ((h | h) | h) | h <;> simp [h]

theorem extendGap_filler {c : Char} (h : isFiller c = true) (g : Gap) (activity : Activity) :
    extendGap 0 activity began (fuel + 1) g ⟨c :: more, m, none, b⟩ =
      extendGap 0 activity began fuel (g.add c) ⟨more, m.after c, none, b⟩ := by
  cases hs : c == ' ' with
  | true =>
      obtain rfl : c = ' ' := by simpa using hs
      have hb : isBlank ' ' = true := rfl
      have hn : isBreak ' ' = false := rfl
      simp [extendGap, bind_apply, hb, Gap.add, Mark.after, hn]
  | false =>
      have hc : c = '\n' ∨ c = nextLine ∨ c = lineSeparator ∨ c = paragraphSeparator := by
        simpa [isFiller, hs, or_assoc] using h
      have hb : isBlank c = false := by rcases hc with rfl | rfl | rfl | rfl <;> rfl
      have hk : isBreak c = true := by rcases hc with rfl | rfl | rfl | rfl <;> rfl
      have hr : c ≠ '\r' := by rcases hc with rfl | rfl | rfl | rfl <;> decide
      have hne : c ≠ ' ' := by simpa using hs
      simp [extendGap, bind_apply, hb, hk, takeBreak_free hk hr, Gap.add, hne]

theorem extendGap_gap (began m : Mark) (b : Nat) {gap rest : List Char}
    (h : ∀ c ∈ gap, isFiller c = true) (hr : rest.head?.all (!isGap ·) = true)
    (g : Gap) (activity : Activity) (hf : gap.length < fuel) :
    extendGap 0 activity began fuel g ⟨gap ++ rest, m, none, b⟩ =
      .ok (gap.foldl Gap.add g, ⟨rest, m.past gap, none, b⟩) := by
  induction gap generalizing fuel g m with
  | nil =>
      obtain ⟨fuel, rfl⟩ : ∃ n, fuel = n + 1 := ⟨fuel - 1, by simp at hf; omega⟩
      cases rest with
      | nil => simp [extendGap, bind_apply]
      | cons c rest =>
          have hc : isGap c = false := by simpa using hr
          rw [isGap, Bool.or_eq_false_iff] at hc
          simp [extendGap, bind_apply, hc]
  | cons x gap ih =>
      obtain ⟨fuel, rfl⟩ : ∃ n, fuel = n + 1 := ⟨fuel - 1, by simp at hf; omega⟩
      rw [List.cons_append, extendGap_filler (h x (by simp)),
        ih _ (fun y hy => h y (List.mem_cons_of_mem _ hy)) _ (by simpa using hf)]
      rfl

/-! ## Lines -/

/-- A character is written as itself, or begins with a backslash and is none that a gap or a
document mark has. -/
theorem escape_eq_or (c : Char) :
    (escape c = [c] ∧ isGap c = isSoft c) ∨
      ∃ w, escape c = '\\' :: w ∧ isSoft c = false ∧ c ≠ '-' ∧ c ≠ '.' := by
  have he := escaped c
  cases hw : escape c with
  | nil => exact absurd hw (escape_ne_nil c)
  | cons x w =>
      rw [hw] at he
      cases he with
      | itself h32 _ _ => exact Or.inl ⟨rfl, isGap_of_plain h32⟩
      | letter hl =>
          have hall : ∀ p ∈ escapeLetters, isSoft p.2 = false ∧ p.2 ≠ '-' ∧ p.2 ≠ '.' := by decide
          exact Or.inr ⟨_, rfl, hall _ hl⟩
      | number hn =>
          refine Or.inr ⟨_, rfl, ?_, by rintro rfl; exact absurd hn (by decide),
            by rintro rfl; exact absurd hn (by decide)⟩
          have hne : ∀ d : Char, 32 ≤ d.toNat → (c == d) = false := fun d hd =>
            beq_false_of_ne (by rintro rfl; omega)
          simp [isSoft, hne ' ' (by decide), hne nextLine (by decide),
            hne lineSeparator (by decide), hne paragraphSeparator (by decide)]

theorem isDocumentMark_iff {cs : List Char} :
    isDocumentMark cs = true ↔
      ∃ x y more, (x = '-' ∨ x = '.') ∧ isSoft y = true ∧ cs = x :: x :: x :: y :: more := by
  constructor
  · intro h
    unfold isDocumentMark at h
    split at h
    · simp only [Bool.and_eq_true, Bool.or_eq_true, beq_iff_eq] at h
      obtain ⟨⟨⟨hx, rfl⟩, rfl⟩, hy⟩ := h
      exact ⟨_, _, _, hx, hy, rfl⟩
    · cases h
  · rintro ⟨x, y, more, hx, hy, rfl⟩
    simp [isDocumentMark, hx, hy]

/-- A character of a mark is written as itself, and no other one is written with it in front. -/
theorem written_eq_cons_iff {x : Char} (hx : x = '-' ∨ x = '.') {cs rest tail : List Char} :
    cs.flatMap escape ++ '"' :: tail = x :: rest ↔
      ∃ cs', cs = x :: cs' ∧ cs'.flatMap escape ++ '"' :: tail = rest := by
  cases cs with
  | nil =>
      have hne : '"' ≠ x := by rintro rfl; revert hx; decide
      simp [hne]
  | cons c cs =>
      rw [List.flatMap_cons, List.append_assoc]
      rcases escape_eq_or c with ⟨he, _⟩ | ⟨w, he, _, hdash, hdot⟩
      · simp [he]
      · have hne : '\\' ≠ x := by rintro rfl; revert hx; decide
        have hc : c ≠ x := by rintro rfl; exact hx.elim hdash hdot
        simp [he, hne, hc]

theorem atGapOrEnd_written (cs tail : List Char) :
    atGapOrEnd (cs.flatMap escape ++ '"' :: tail).head? = cs.head?.any isSoft := by
  cases cs with
  | nil => rfl
  | cons c cs =>
      rw [List.flatMap_cons, List.append_assoc]
      rcases escape_eq_or c with ⟨he, hg⟩ | ⟨w, he, hs, _⟩
      · rw [he]
        exact hg
      · rw [he]
        exact hs.symm

theorem atDocumentMark_written (cs tail : List Char) (m : Mark) (b : Nat) :
    (Cursor.mk (cs.flatMap escape ++ '"' :: tail) m none b).atDocumentMark =
    (m.column == 0 && isDocumentMark cs) := by
  rw [Bool.eq_iff_iff, Cursor.atDocumentMark_iff, Bool.and_eq_true, beq_iff_eq, isDocumentMark_iff]
  refine and_congr_right fun _ => ⟨?_, ?_⟩
  · rintro ⟨x, more, hx, hgap, hrest⟩
    obtain ⟨cs₁, rfl, h₁⟩ := (written_eq_cons_iff hx).mp hrest
    obtain ⟨cs₂, rfl, h₂⟩ := (written_eq_cons_iff hx).mp h₁
    obtain ⟨cs₃, rfl, rfl⟩ := (written_eq_cons_iff hx).mp h₂
    rw [atGapOrEnd_written] at hgap
    cases cs₃ with
    | nil => cases hgap
    | cons y more => exact ⟨x, y, more, hx, hgap, rfl⟩
  · rintro ⟨x, y, more, hx, hy, rfl⟩
    have hback : ∀ cs rest, cs.flatMap escape ++ '"' :: tail = rest →
        (x :: cs).flatMap escape ++ '"' :: tail = x :: rest :=
      fun cs _ h => (written_eq_cons_iff hx).mpr ⟨cs, rfl, h⟩
    refine ⟨x, _, hx, ?_, hback _ _ (hback _ _ (hback _ _ rfl))⟩
    rw [atGapOrEnd_written]
    exact hy

theorem escape_of_soft {c : Char} (h : isSoft c = true) : escape c = [c] ∧ isGap c = true := by
  rcases escape_eq_or c with ⟨he, hg⟩ | ⟨_, _, hc, _⟩
  · exact ⟨he, by rw [hg, h]⟩
  · rw [h] at hc; cases hc

theorem column_past {gap : List Char} (c : Char) (m : Mark) :
    ((m.past (c :: gap)).column == 0) = isBreak ((c :: gap).getLast (by simp)) := by
  induction gap generalizing c m with
  | nil =>
      cases h : isBreak c <;> simp [Mark.after, h, Mark.next, Mark.nextLine]
  | cons d gap ih => rw [Mark.past_cons, ih]; simp

theorem flatMap_soft {gap : List Char} (h : ∀ c ∈ gap, isSoft c = true) :
    gap.flatMap escape = gap := by
  induction gap with
  | nil => rfl
  | cons c gap ih =>
      rw [List.flatMap_cons, (escape_of_soft (h c (by simp))).1, ih fun x hx =>
        h x (List.mem_cons_of_mem _ hx)]
      rfl

/-- One line: a run, a gap, and the lines behind it. -/
theorem quotedLines_gap {run gap rest tail : List Char} {c : Char}
    (hrun : ∀ x ∈ run, isSoft x = false)
    (hgap : ∀ x ∈ c :: gap, isSoft x = true) (hrest : rest.head?.all (!isSoft ·) = true)
    (hmark : (Cursor.mk ((run ++ c :: (gap ++ rest)).flatMap escape ++ '"' :: tail) m none
      b).atDocumentMark = false)
    (hb : (run ++ c :: gap).length < b) :
    quotedLines false began (fuel + 1) acc
      ⟨(run ++ c :: (gap ++ rest)).flatMap escape ++ '"' :: tail, m, none, b⟩ =
      quotedLines false began fuel (((c :: gap).foldl Gap.add .empty).text ++ (run.reverse ++ acc))
        ⟨rest.flatMap escape ++ '"' :: tail, (m.past (run.flatMap escape)).past (c :: gap),
        none, b⟩ := by
  have hcs : isGap c = true ∨ c = '"' := Or.inl (escape_of_soft (hgap c (by simp))).2
  have hne : c ≠ '"' := by rintro rfl; exact absurd (hgap '"' (by simp)) (by decide)
  obtain ⟨x, w, hw⟩ :=
    List.exists_cons_of_ne_nil (show rest.flatMap escape ++ '"' :: tail ≠ [] by simp)
  have hx : isGap x = false := by
    have h := atGapOrEnd_written rest tail
    rw [hw] at h
    refine Eq.trans h ?_
    cases rest with
    | nil => rfl
    | cons y rest => simpa using hrest
  have hwritten : (run ++ c :: (gap ++ rest)).flatMap escape ++ '"' :: tail = run.flatMap escape ++
      c :: (gap ++ x :: w) := by
    rw [List.flatMap_append, List.flatMap_cons, List.flatMap_append,
      (escape_of_soft (hgap c (by simp))).1, flatMap_soft fun y hy =>
        hgap y (List.mem_cons_of_mem _ hy), ← hw]
    simp
  have hr :=
    quotedRun_run began m b acc (gap ++ x :: w) hrun hcs (show run.length < b by simp at hb; omega)
  have hw' : (x :: w).head?.all (!isGap ·) = true := by simpa using hx
  have he :=
    extendGap_gap began (m.past (run.flatMap escape)) b (fun y hy => isFiller_of_soft (hgap y hy))
      hw' .empty
    .quotedScalar (show (c :: gap).length < b by simp at hb ⊢; omega)
  rw [hwritten] at hmark ⊢
  rw [List.cons_append] at he
  simp [quotedLines, bind_apply, hmark, hr, hne, he, hw]

theorem quotedLines_written (began : Mark) (tail : List Char) (fuel : Nat) (cs acc : List Char)
    (m : Mark) (hf : cs.length < fuel) (hb : cs.length < b) :
    (quotedLines false began fuel acc ⟨cs.flatMap escape ++ '"' :: tail, m, none, b⟩).toOption =
      if m.column == 0 && isDocumentMark cs then none
      else (refold? cs).map fun text =>
        (text.reverse ++ acc, ⟨'"' :: tail, m.past (cs.flatMap escape), none, b⟩) := by
  induction fuel generalizing cs acc m with
  | zero => omega
  | succ fuel ih =>
      have hmark := atDocumentMark_written cs tail m b
      cases hd : (m.column == 0 && isDocumentMark cs) with
      | true =>
          rw [hd] at hmark
          simp [quotedLines, bind_apply, hmark, fail, Except.toOption]
      | false =>
          rw [hd] at hmark
          obtain ⟨run, rest, rfl, hrun, hrest⟩ := exists_run (!isSoft ·) cs
          simp only [Bool.not_eq_true', Bool.not_not] at hrun hrest
          rw [if_neg (by simp), refold?_run hrun]
          cases rest with
          | nil =>
              have hq : isGap '"' = true ∨ '"' = '"' := Or.inr rfl
              simp only [List.append_nil] at hmark hb ⊢
              simp [quotedLines, bind_apply, hmark, quotedRun_run _ _ _ _ _ hrun hq hb, refold?,
                Except.toOption]
          | cons c rest =>
              obtain ⟨gap, rest, rfl, hgap, hrest'⟩ := exists_run isSoft rest
              have hc : isSoft c = true := by simpa using hrest
              have hsoft : ∀ x ∈ c :: gap, isSoft x = true := List.forall_mem_cons.mpr ⟨hc, hgap⟩
              rw [quotedLines_gap hrun hsoft hrest' hmark (by simp at hb ⊢; omega),
                ih _ _ _ (by simp at hf; omega)
                (by simp at hb; omega), column_past, refold?, if_pos hc, refoldGap?_gap hgap hrest']
              split
              · rfl
              · simp [Mark.past_append, flatMap_soft hgap, (escape_of_soft hc).1, Function.comp_def]

/-! ## Scalars -/

/-- The token of a written string, and the place behind it. -/
theorem quoted_written (text : String) (tail : List Char) (m : Mark) (hb : text.toList.length < b) :
    (quoted false ⟨writeString text tail, m, none, b⟩).toOption =
      (refold? text.toList).map fun cs =>
        (⟨.scalar .doubleQuoted (String.ofList cs), m, m.past (writeString text [])⟩,
          ⟨tail, m.past (writeString text []), none, b⟩) := by
  have hq : isBreak '"' = false := rfl
  have hl := quotedLines_written m tail b text.toList [] (m.next '"') hb hb
  have hcol : ((m.next '"').column == 0) = false := by simp [Mark.next]
  rw [hcol, Bool.false_and, if_neg Bool.false_ne_true] at hl
  cases h : refold? text.toList with
  | none =>
      rw [h] at hl
      cases hx : quotedLines false m b []
          ⟨text.toList.flatMap escape ++ '"' :: tail, m.next '"', none, b⟩ with
      | ok r => rw [hx] at hl; cases hl
      | error e => simp [quoted, writeString, bind_apply, hx, Except.toOption]
  | some cs =>
      rw [h] at hl
      have hx := eq_ok_of_toOption hl
      simp [quoted, writeString, bind_apply, map_apply, hx, Except.toOption, Mark.past_append,
        Mark.after, hq]

end Scan

end BootConfig.Yaml
