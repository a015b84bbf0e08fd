import BootConfig.Proofs.Yaml.Token.Scanned

/-!
# Gaps inside scalars

What folding makes of a gap that takes some characters still holds a gap, so that a text without one
is its own source.
-/

namespace BootConfig.Yaml

open Steps

/-! ## Texts and their sources -/

/-- A text of characters in `p` is its own source, if that has only characters in `q`. -/
def Verbatim (p q : Char → Bool) (source text : List Char) : Prop :=
  (∀ x ∈ text, p x = true) → (∀ x ∈ source, q x = true) → source = text

namespace Verbatim

variable {p q : Char → Bool} {source source' text text' : List Char}

theorem refl (text : List Char) : Verbatim p q text text := fun _ _ => rfl

theorem append (h : Verbatim p q source text) (h' : Verbatim p q source' text') :
    Verbatim p q (source ++ source') (text ++ text') := by
  intro hp hq
  rw [h (fun x hx => hp x (List.mem_append_left _ hx)) fun x hx => hq x (List.mem_append_left _ hx),
    h' (fun x hx => hp x (List.mem_append_right _ hx)) fun x hx =>
      hq x (List.mem_append_right _ hx)]

theorem of_text {x : Char} (hx : x ∈ text) (hp : p x = false) : Verbatim p q source text :=
  fun h _ => by
  rw [h x hx] at hp
  cases hp

theorem of_source {x : Char} (hx : x ∈ source) (hq : q x = false) : Verbatim p q source text :=
  fun _ h => by
  rw [h x hx] at hq
  cases hq

end Verbatim

/-! ## Gaps -/

namespace Gap

/-- A gap that is not empty. -/
structure Filled (g : Gap) : Prop where
  blanks : ∀ c ∈ g.blanks, isGap c = true
  first : ∀ c ∈ g.first, isGap c = true
  further : ∀ c ∈ g.further, isGap c = true
  filled : if g.broken then g.first ≠ [] else g.blanks ≠ []

variable {g : Gap} {c : Char}

theorem isGap_of_isBlank (h : isBlank c = true) : isGap c = true := by simp [isGap, h]

theorem isGap_of_isBreak (h : isBreak c = true) : isGap c = true := by simp [isGap, h]

theorem Filled.text (h : g.Filled) : ∃ c ∈ g.text, isGap c = true := by
  have hf := h.filled
  cases hb : g.broken with
  | false =>
      rw [hb, if_neg Bool.false_ne_true] at hf
      obtain ⟨c, cs, hc⟩ := List.exists_cons_of_ne_nil hf
      exact ⟨c, by simp [Gap.text, hb, hc], h.blanks c (by simp [hc])⟩
  | true =>
      rw [hb, if_pos rfl] at hf
      obtain ⟨c, cs, hc⟩ := List.exists_cons_of_ne_nil hf
      by_cases hn : c = '\n'
      · cases hfurther : g.further with
        | nil => exact ⟨' ', by simp [Gap.text, hb, hc, hn, hfurther], rfl⟩
        | cons x xs =>
            exact ⟨x, by simp [Gap.text, hb, hc, hn, hfurther], h.further x (by simp [hfurther])⟩
      · exact ⟨c, by simp [Gap.text, hb, hc, hn], h.first c (by simp [hc])⟩

theorem Filled.addBlank (h : g = .empty ∨ g.Filled) (hc : isBlank c = true) :
    (g.addBlank c).Filled := by
  have hg := isGap_of_isBlank hc
  unfold Gap.addBlank
  rcases h with rfl | h
  · exact ⟨by simpa [Gap.empty] using hg, by simp [Gap.empty], by simp [Gap.empty], by
      simp [Gap.empty]⟩
  · cases hb : g.broken with
    | true => exact h
    | false => exact ⟨List.forall_mem_cons.mpr ⟨hg, h.blanks⟩, h.first, h.further, by simp⟩

theorem Filled.addBreak (h : g = .empty ∨ g.Filled) (hc : isBreak c = true) :
    (g.addBreak [c]).Filled := by
  have hg := isGap_of_isBreak hc
  rcases h with rfl | h
  · exact ⟨by simp [Gap.addBreak, Gap.empty], by simpa [Gap.addBreak,
      Gap.empty] using hg, by simp [Gap.addBreak, Gap.empty],
      by simp [Gap.addBreak, Gap.empty]⟩
  · unfold Gap.addBreak
    cases hb : g.broken with
    | true =>
        refine ⟨h.blanks, h.first, List.forall_mem_cons.mpr ⟨hg, h.further⟩, ?_⟩
        have hf := h.filled
        rw [hb, if_pos rfl] at hf
        simpa using hf
    | false => exact ⟨by simp, by simpa using hg, h.further, by simp⟩

/-- A gap over the characters of a source. -/
def Spans (source : List Char) (g : Gap) : Prop := source = [] ∧ g = .empty ∨ g.Filled

theorem Spans.verbatim {p q : Char → Bool} {source : List Char} (h : g.Spans source)
    (hp : ∀ x, isGap x = true → p x = false) : Verbatim p q source g.text.reverse := by
  rcases h with ⟨rfl, rfl⟩ | h
  · exact .refl []
  · obtain ⟨c, hm, hc⟩ := h.text
    exact .of_text (List.mem_reverse.mpr hm) (hp c hc)

end Gap

namespace Scan

variable {indent fuel : Nat} {activity : Activity} {began : Mark} {g g' : Gap} {c c' : Cursor}

/-- A gap ends, or it is extended over a blank or a line break. -/
theorem extendGap_step (h : extendGap indent activity began (fuel + 1) g c = .ok (g', c')) :
    atGap c.rest.head? = false ∧ g' = g ∧ c' = c ∨
      ∃ taken g₁ c₁, taken ≠ [] ∧ (∀ x ∈ taken, isGap x = true) ∧ c.rest = taken ++ c₁.rest ∧
        (g = .empty ∨ g.Filled → g₁.Filled) ∧
        extendGap indent activity began fuel g₁ c₁ = .ok (g', c') := by
  obtain ⟨next, c₀, hpeek, h⟩ := ok_of_bind h
  cases hpeek
  cases hr : c.rest with
  | nil =>
      simp only [hr, List.head?_nil] at h
      cases h
      exact Or.inl ⟨rfl, rfl, rfl⟩
  | cons x more =>
      simp only [hr, List.head?_cons] at h
      split at h
      · rename_i hx
        obtain ⟨_, c₁, hmark, h⟩ := ok_of_bind h
        cases hmark
        -- a tab may be refused here, and then nothing is read
        have hmore :
            (skip >>= fun _ => need 1 >>= fun _ =>
            extendGap indent activity began fuel (g.addBlank x)) c = .ok (g', c') := by
          split at h
          · obtain ⟨_, _, hfail, _⟩ := ok_of_bind h
            exact absurd hfail fails_fail
          · exact h
        obtain ⟨_, c₁, hskip, hmore⟩ := ok_of_bind hmore
        cases hskip
        obtain ⟨_, c₂, hneed, hmore⟩ := ok_of_bind hmore
        rw [stays_need 1 _ _ _ hneed] at hmore
        refine Or.inr ⟨[x], _, _, by simp, by simpa using Gap.isGap_of_isBlank hx, ?_, fun hg =>
          .addBlank hg hx, hmore⟩
        simp [Cursor.advance, hr]
      · rename_i hblank
        split at h
        · rename_i hbreak
          obtain ⟨_, c₁, hneed, h⟩ := ok_of_bind h
          rw [stays_need 2 _ _ _ hneed] at h
          obtain ⟨found, c₂, htake, h⟩ := ok_of_bind h
          obtain ⟨_, c₃, hneed, h⟩ := ok_of_bind h
          rw [stays_need 1 _ _ _ hneed] at h
          -- a break of two characters is kept as one
          rcases takeBreak_ok htake with ⟨rfl, hno⟩ | ⟨y, taken, rfl, hy, htaken, hne, hall, _⟩
          · rw [hr] at hno
            rw [show isBreak x = false from hno] at hbreak
            cases hbreak
          · rw [hr] at htaken
            exact Or.inr ⟨taken, _, c₂, hne, fun x hx => Gap.isGap_of_isBreak (hall x hx), htaken,
              fun hg => .addBreak hg hy, h⟩
        · rename_i hbreak
          cases h
          refine Or.inl ⟨?_, rfl, rfl⟩
          simp only [Bool.not_eq_true] at hblank hbreak
          simp [atGap, isGap, hblank, hbreak]

/-- The characters of a gap are taken, and the gap spans them as well. -/
theorem extendGap_spans : (fuel : Nat) → {g g' : Gap} → {c c' : Cursor} →
    extendGap indent activity began fuel g c = .ok (g', c') →
    ∃ taken, c.rest = taken ++ c'.rest ∧ (∀ x ∈ taken, isGap x = true) ∧
      (0 < fuel → atGap c.rest.head? = true → taken ≠ []) ∧
      ∀ source, g.Spans source → g'.Spans (source ++ taken)
  | 0, _, _, _, _, h => by
      cases h
      exact ⟨[], rfl, by simp, fun h => absurd h (Nat.lt_irrefl _),
        fun source hg => by rwa [List.append_nil]⟩
  | fuel + 1, g, g', c, c', h => by
      rcases extendGap_step h with ⟨hno, rfl, rfl⟩ | ⟨taken, g₁, c₁, hne, hall, hr, hg₁, h⟩
      · refine ⟨[], rfl, by simp, fun _ hat => ?_, fun source hg => by rwa [List.append_nil]⟩
        rw [hat] at hno
        cases hno
      · obtain ⟨taken', hr', hall', _, hspan⟩ := extendGap_spans fuel h
        refine ⟨taken ++ taken', by rw [hr, hr', List.append_assoc], ?_, fun _ _ => by simp [hne],
          fun source hg => ?_⟩
        · intro x hx
          rcases List.mem_append.mp hx with hx | hx
          · exact hall x hx
          · exact hall' x hx
        · rw [← List.append_assoc]
          exact hspan _ (Or.inr (hg₁ (hg.imp_left And.right)))

end Scan

end BootConfig.Yaml
