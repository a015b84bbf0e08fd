import BootConfig.Proofs.Yaml.Token.Folding

/-!
# Scalars and their sources

The text of a flow scalar is what is written in the source, but for gaps, which folding changes,
quotes written twice and escapes.
-/

namespace BootConfig.Yaml

open Steps

namespace Scan

variable {fuel : Nat} {began stop : Mark} {acc : List Char} {gap : Gap} {c c' : Cursor}

/-! ## Plain scalars -/

/-- A plain text without gaps is its own source. -/
abbrev PlainSource (source text : List Char) : Prop :=
  Verbatim (fun x => !isGap x) (fun _ => true) source text

section Plain

variable {inFlow : Bool} {indent : Nat}

theorem plainRun_ok : (fuel : Nat) → {acc run : List Char} → {c c' : Cursor} →
    plainRun inFlow began fuel acc c = .ok (run, c') →
    ∃ taken, c.rest = taken ++ c'.rest ∧ run = taken.reverse ++ acc
  | 0, _, _, _, _, h => by
      cases h
      exact ⟨[], rfl, rfl⟩
  | fuel + 1, _, _, _, _, h => by
      rcases plainRun_step h with ⟨rfl, rfl, _⟩ | ⟨x, hr, h⟩
      · exact ⟨[], rfl, rfl⟩
      · obtain ⟨taken, hr', rfl⟩ := plainRun_ok fuel h
        exact ⟨x :: taken, by rw [hr, hr']; rfl, by simp⟩

/-- The state between two lines of a plain scalar that began at a cursor: what has been read of it,
and the gap behind. -/
structure PlainSoFar (c₀ : Cursor) (acc : List Char) (stop : Mark) (gap : Gap) (c : Cursor)
    (source gapSource : List Char) : Prop where
  rest : c₀.rest = source ++ (gapSource ++ c.rest)
  before : c₀.Before c
  stop : stop.offset = c₀.mark.offset + bytes source
  text : PlainSource source acc.reverse
  gap : gap.Spans gapSource

theorem PlainSoFar.run {c₀ : Cursor} {source gapSource taken : List Char}
    (h : PlainSoFar c₀ acc stop gap c source gapSource)
    (hr : c.rest = taken ++ c'.rest) (hb : c.Before c') :
    PlainSoFar c₀ (taken.reverse ++ (gap.text ++ acc)) c'.mark .empty c'
    (source ++ gapSource ++ taken) [] where
  rest := by simp [h.rest, hr]
  before := h.before.trans hb
  stop := (h.before.trans hb).offset (by simp [h.rest, hr])
  text := by
    have hgap :=
      h.gap.verbatim (p := fun x => !isGap x) (q := fun _ => true) (fun x hx => by simp [hx])
    simpa using (h.text.append hgap).append (.refl taken)
  gap := Or.inl ⟨rfl, rfl⟩

theorem PlainSoFar.withRun {c₀ c₁ : Cursor} {source gapSource run acc₁ : List Char} {stop₁ : Mark}
    {gap₁ : Gap} (hs : PlainSoFar c₀ acc stop gap c source gapSource)
    (hrun : plainRun inFlow began fuel [] c = .ok (run, c₁))
    (hw : Scan.withRun run acc stop c₁.mark gap = (acc₁, stop₁, gap₁)) :
    ∃ source₁ gapSource₁, PlainSoFar c₀ acc₁ stop₁ gap₁ c₁ source₁ gapSource₁ := by
  obtain ⟨taken, hr, hreverse⟩ := plainRun_ok _ hrun
  rw [List.append_nil] at hreverse
  have hbefore := (keeps_plainRun _ _ _ _).rel hrun
  by_cases he : taken = []
  · subst he
    rw [hreverse] at hw
    cases hw
    exact ⟨source, gapSource,
      { hs with rest := by rw [hs.rest, hr]; rfl, before := hs.before.trans hbefore }⟩
  · have hs₁ := hs.run hr hbefore
    rw [← hreverse] at hs₁
    rw [Scan.withRun, if_neg (by simpa [hreverse] using he)] at hw
    cases hw
    exact ⟨_, _, hs₁⟩

theorem PlainSoFar.extended {c₀ : Cursor} {source gapSource : List Char} {gap' : Gap}
    {activity : Activity} (hs : PlainSoFar c₀ acc stop gap c source gapSource)
    (h : extendGap indent activity began fuel gap c = .ok (gap', c')) :
    ∃ skipped, PlainSoFar c₀ acc stop gap' c' source (gapSource ++ skipped) := by
  obtain ⟨skipped, hskipped, _, _, hspans⟩ := extendGap_spans _ h
  exact ⟨skipped, { hs with
    rest := by rw [hs.rest, hskipped, List.append_assoc]
    before := hs.before.trans ((keeps_extendGap _ _ _ _ _).rel h)
    gap := hspans _ hs.gap }⟩

theorem plainLines_source {c₀ : Cursor} : (fuel : Nat) → {acc : List Char} → {stop : Mark} →
    {gap : Gap} → {c c' : Cursor} → {source gapSource : List Char} → {r : List Char × Mark × Bool} →
    PlainSoFar c₀ acc stop gap c source gapSource →
    plainLines inFlow indent began fuel acc stop gap c = .ok (r, c') →
    ∃ source rest, c₀.rest = source ++ rest ∧ r.2.1.offset = c₀.mark.offset + bytes source ∧
      PlainSource source r.1.reverse
  | 0, _, _, _, _, _, source, _, _, hs, h => by
      cases h
      exact ⟨source, _, hs.rest, hs.stop, hs.text⟩
  | fuel + 1, _, _, _, _, _, source, _, _, hs, h => by
      rcases plainLines_step h with ⟨_, rfl, rfl⟩ | ⟨run, c₁, acc₁, stop₁, gap₁, hrun, hw, hnext⟩
      · exact ⟨source, _, hs.rest, hs.stop, hs.text⟩
      · obtain ⟨source₁, gapSource₁, hs₁⟩ := hs.withRun hrun hw
        rcases hnext with ⟨_, rfl, rfl⟩ | ⟨_, gap₂, c₂, hgap, hlast⟩
        · exact ⟨source₁, _, hs₁.rest, hs₁.stop, hs₁.text⟩
        · obtain ⟨skipped, hs₂⟩ := hs₁.extended hgap
          rcases hlast with ⟨rfl, rfl⟩ | h
          · exact ⟨source₁, _, hs₂.rest, hs₂.stop, hs₂.text⟩
          · exact plainLines_source fuel hs₂ h

theorem plain_source {t : Token} {broken : Bool}
    (h : plain inFlow indent c = .ok ((t, broken), c')) :
    ∃ source text rest, t.kind = .scalar .plain (String.ofList text) ∧ t.start = c.mark ∧
      c.rest = source ++ rest ∧ t.stop.offset = c.mark.offset + bytes source ∧
      PlainSource source text := by
  obtain ⟨began, c₁, hm, h⟩ := ok_of_bind h
  cases hm
  obtain ⟨bound, c₁, hbound, h⟩ := ok_of_bind h
  cases hbound
  obtain ⟨⟨acc, stop, b⟩, c₁, hl, h⟩ := ok_of_bind h
  cases h
  have hs : PlainSoFar c [] c.mark .empty c [] [] :=
    ⟨rfl, .refl c, rfl, .refl [], Or.inl ⟨rfl, rfl⟩⟩
  obtain ⟨source, rest, hr, hstop, htext⟩ := plainLines_source _ hs hl
  exact ⟨source, acc.reverse, rest, rfl, rfl, hr, hstop, htext⟩

end Plain

/-! ## Quoted scalars -/

section Quoted

variable {single : Bool}

/-- A quoted text without gaps and single quotes is its own source, if that has no escapes. -/
abbrev QuotedSource (single : Bool) (source text : List Char) : Prop :=
  Verbatim (fun x => !isGap x && x != '\'') (fun x => single || x != '\\') source text

/-- The quote at both ends of a scalar. -/
def quoteOf (single : Bool) : Char := if single then '\'' else '"'

theorem quoteOf_eq (single : Bool) : (if single = true then '\'' else '"') = quoteOf single := rfl

/-- What a run of a quoted scalar takes, the text it adds, and where it ends. -/
structure QuotedRun (single : Bool) (c : Cursor) (acc acc' : List Char) (escaped : Bool)
    (c' : Cursor) (taken text : List Char) : Prop where
  rest : c.rest = taken ++ c'.rest
  grown : acc' = text.reverse ++ acc
  source : QuotedSource single taken text
  broken : escaped = true → single = false ∧ '\\' ∈ taken
  ends : escaped = false → c'.rest.head?.all (fun x => isGap x || x == quoteOf single) = true

theorem QuotedRun.refl (h : c.rest.head?.all (fun x => isGap x || x == quoteOf single) = true) :
    QuotedRun single c acc acc false c [] [] := ⟨rfl, rfl, .refl [], nofun, fun _ => h⟩

theorem QuotedRun.more {c₁ : Cursor} {acc acc' front taken text : List Char} {x : Char}
    {escaped : Bool} (hr : c.rest = front ++ c₁.rest) (hs : QuotedSource single front [x])
    (h : QuotedRun single c₁ (x :: acc) acc' escaped c' taken text) :
    QuotedRun single c acc acc' escaped c' (front ++ taken) (x :: text) where
  rest := by rw [hr, h.rest, List.append_assoc]
  grown := by simp [h.grown]
  source := hs.append h.source
  broken he := ⟨(h.broken he).1, List.mem_append_right _ (h.broken he).2⟩
  ends := h.ends

/-- What is taken in front of a cursor that has moved begins with the first character. -/
theorem mem_of_past {x : Char} {more : List Char} (hr : c.rest = x :: more) (h : c.Past c') :
    ∃ front, c.rest = front ++ c'.rest ∧ x ∈ front ∧ c'.rest.length < c.rest.length := by
  obtain ⟨front, hfront, _⟩ := h.passed
  have hlt := h.taken (by rw [hr]; exact List.cons_ne_nil _ _)
  cases front with
  | nil =>
      rw [List.nil_append] at hfront
      rw [hfront] at hlt
      exact absurd hlt (Nat.lt_irrefl _)
  | cons y front =>
      obtain ⟨rfl, _⟩ := List.cons.inj (hr.symm.trans hfront)
      exact ⟨x :: front, hfront, by simp, hlt⟩

/-- A run ends in front of a gap or the closing quote, or behind an escaped line break, or it takes
what stands for a character and goes on. -/
theorem quotedRun_step {acc acc' : List Char} {escaped : Bool}
    (h : quotedRun single began (fuel + 1) acc c = .ok ((acc', escaped), c')) :
    (acc' = acc ∧ escaped = false ∧ c' = c ∧
      c.rest.head?.all (fun x => isGap x || x == quoteOf single) = true) ∨
    (acc' = acc ∧ escaped = true ∧ single = false ∧
      ∃ front, c.rest = front ++ c'.rest ∧ '\\' ∈ front) ∨
    ∃ front x c₁, c.rest = front ++ c₁.rest ∧ c₁.rest.length < c.rest.length ∧
      QuotedSource single front [x] ∧
      quotedRun single began fuel (x :: acc) c₁ = .ok ((acc', escaped), c') := by
  have hmore : ∀ {x : Char} {c₁ : Cursor},
      (need 2 >>= fun _ => quotedRun single began fuel (x :: acc)) c₁ = .ok ((acc', escaped), c') →
        quotedRun single began fuel (x :: acc) c₁ = .ok ((acc', escaped), c') := by
    intro x c₁ h
    obtain ⟨_, c₂, hneed, h⟩ := ok_of_bind h
    rwa [stays_need 2 _ _ _ hneed] at h
  unfold quotedRun at h
  rw [get_bind] at h
  cases hr : c.rest with
  | nil =>
      simp only [hr] at h
      cases h
      exact Or.inl ⟨rfl, rfl, rfl, by simp⟩
  | cons x more =>
      simp only [hr] at h
      change (if isGap x = true then _ else if _ then _ else if x = quoteOf single then _
          else _ : Scan _) c = _ at h
      split at h
      · rename_i hgap
        cases h
        exact Or.inl ⟨rfl, rfl, rfl, by simp [hgap]⟩
      · split at h
        · -- two quotes within single quotes are one
          obtain ⟨_, c₁, hskip, h⟩ := ok_of_bind h
          obtain ⟨front, hfront, _, hlt⟩ := mem_of_past hr ((takes_skipMany 1).rel hskip)
          rw [hr] at hfront hlt
          exact Or.inr (Or.inr ⟨front, _, c₁, hfront, hlt,
            .of_text (List.mem_singleton_self '\'') rfl, hmore h⟩)
        · split at h
          · rename_i hquote
            cases h
            exact Or.inl ⟨rfl, rfl, rfl, by simp [hquote]⟩
          · split at h
            · rename_i hslash
              simp only [Bool.and_eq_true, Bool.not_eq_true', decide_eq_true_eq] at hslash
              obtain ⟨hsingle, rfl⟩ := hslash
              split at h
              · -- an escaped break ends the run
                obtain ⟨_, c₁, hneed, h⟩ := ok_of_bind h
                rw [stays_need 3 _ _ _ hneed] at h
                obtain ⟨_, c₂, hskip, h⟩ := ok_of_bind h
                obtain ⟨_, c₃, hbreak, h⟩ := ok_of_bind h
                cases h
                obtain ⟨front, hfront, hm, _⟩ :=
                  mem_of_past hr ((takes_skip.rel hskip).before (keeps_skipBreak.rel hbreak))
                rw [hr] at hfront
                exact Or.inr (Or.inl ⟨rfl, rfl, hsingle, front, hfront, hm⟩)
              · obtain ⟨y, c₁, hescape, h⟩ := ok_of_bind h
                obtain ⟨front, hfront, hm, hlt⟩ :=
                  mem_of_past hr ((takes_escapedBy _ _).rel hescape)
                rw [hr] at hfront hlt
                exact Or.inr (Or.inr ⟨front, y, c₁, hfront, hlt,
                  .of_source hm (by simp [hsingle]), hmore h⟩)
            · obtain ⟨_, c₁, hskip, h⟩ := ok_of_bind h
              cases hskip
              have hrest : c.advance.rest = more := by simp [Cursor.advance, hr]
              exact Or.inr (Or.inr ⟨[x], x, c.advance, by rw [hrest]; rfl, by rw [hrest]; simp,
                .refl [x], hmore h⟩)

theorem quotedRun_ok : (fuel : Nat) → {acc acc' : List Char} → {escaped : Bool} → {c c' : Cursor} →
    c.rest.length < fuel → quotedRun single began fuel acc c = .ok ((acc', escaped), c') →
    ∃ taken text, QuotedRun single c acc acc' escaped c' taken text
  | 0, _, _, _, _, _, hf, _ => absurd hf (Nat.not_lt_zero _)
  | fuel + 1, _, _, _, _, _, hf, h => by
      rcases quotedRun_step h with ⟨rfl, rfl, rfl, hends⟩ | ⟨rfl, rfl, hsingle, front, hfront, hm⟩ |
        ⟨front, x, c₁, hfront, hlt, hs, h⟩
      · exact ⟨[], [], .refl hends⟩
      · exact ⟨front, [], hfront, rfl, .of_source hm (by simp [hsingle]), fun _ =>
          ⟨hsingle, hm⟩, nofun⟩
      · obtain ⟨taken, text, hrun⟩ := quotedRun_ok fuel (by omega) h
        exact ⟨_, _, hrun.more hfront hs⟩

/-- Lines end at the closing quote, or a run and a gap are taken and they go on. -/
theorem quotedLines_step {acc acc' : List Char}
    (h : quotedLines single began (fuel + 1) acc c = .ok (acc', c')) :
    0 < c.rest.length ∧
    ∃ acc₁ escaped c₁, quotedRun single began c.bound acc c = .ok ((acc₁, escaped), c₁) ∧
      (c₁.rest.head? = some (quoteOf single) ∧ acc' = acc₁ ∧ c' = c₁ ∨
        c₁.rest.head? ≠ some (quoteOf single) ∧ ∃ gap c₂,
          extendGap 0 .quotedScalar began c.bound (if escaped then .escapedBreak else .empty) c₁ =
            .ok (gap, c₂) ∧
          quotedLines single began fuel (gap.text ++ acc₁) c₂ = .ok (acc', c')) := by
  obtain ⟨_, c₁, hneed, h⟩ := ok_of_bind h
  rw [stays_need 4 _ _ _ hneed, get_bind, quoteOf_eq] at h
  split at h
  · obtain ⟨_, _, hfail, _⟩ := ok_of_bind h
    exact absurd hfail fails_fail
  · split at h
    · obtain ⟨_, _, hfail, _⟩ := ok_of_bind h
      exact absurd hfail fails_fail
    · rename_i hempty
      refine ⟨List.length_pos_iff.mpr (by simpa using hempty), ?_⟩
      obtain ⟨_, c₁, hneed, h⟩ := ok_of_bind h
      rw [stays_need 2 _ _ _ hneed] at h
      obtain ⟨⟨acc₁, escaped⟩, c₁, hrun, h⟩ := ok_of_bind h
      refine ⟨acc₁, escaped, c₁, hrun, ?_⟩
      obtain ⟨_, c₂, hneed, h⟩ := ok_of_bind h
      rw [stays_need 1 _ _ _ hneed] at h
      obtain ⟨next, c₂, hpeek, h⟩ := ok_of_bind h
      cases hpeek
      split at h
      · rename_i hquote
        cases h
        exact Or.inl ⟨hquote, rfl, rfl⟩
      · rename_i hquote
        obtain ⟨gap, c₂, hgap, h⟩ := ok_of_bind h
        exact Or.inr ⟨hquote, gap, c₂, hgap, h⟩

/-- A run and the gap behind it are not empty: a run that takes nothing ends in front of a gap. -/
theorem QuotedRun.shorter {acc acc₁ taken text : List Char} {escaped : Bool} {c₁ c₂ : Cursor}
    {gap gap' : Gap} (hq : QuotedRun single c acc acc₁ escaped c₁ taken text)
    (hne : 0 < c.rest.length) (hf : c.rest.length < fuel)
    (hquote : c₁.rest.head? ≠ some (quoteOf single))
    (hgap : extendGap 0 .quotedScalar began fuel gap c₁ = .ok (gap', c₂)) :
    c₂.rest.length < c.rest.length := by
  obtain ⟨skipped, hskipped, _, hskips, _⟩ := extendGap_spans _ hgap
  have hlen : c.rest.length = taken.length + (skipped.length + c₂.rest.length) := by
    rw [hq.rest, hskipped, List.length_append, List.length_append]
  cases escaped with
  | true =>
      have := List.length_pos_of_mem (hq.broken rfl).2
      omega
  | false =>
      cases hc : c₁.rest with
      | nil =>
          rw [hc] at hskipped
          have : c₂.rest = [] := (List.append_eq_nil_iff.mp hskipped.symm).2
          rw [this]
          exact hne
      | cons x more =>
          have hends := hq.ends rfl
          rw [hc] at hends hquote hskips
          simp only [List.head?_cons, Option.all_some, Bool.or_eq_true, beq_iff_eq] at hends
          rcases hends with hx | rfl
          · have := List.length_pos_iff.mpr (hskips (by omega) hx)
            omega
          · exact absurd rfl hquote

/-- The lines of a quoted scalar end at its closing quote. -/
theorem quotedLines_source {c₀ : Cursor} : (fuel : Nat) → {acc acc' : List Char} → {c c' : Cursor} →
    {source : List Char} → c₀.rest = source ++ c.rest → QuotedSource single source acc.reverse →
    c.rest.length < fuel → c.rest.length < c.bound →
    quotedLines single began fuel acc c = .ok (acc', c') →
    ∃ source, c₀.rest = source ++ c'.rest ∧ c'.rest.head? = some (quoteOf single) ∧
      QuotedSource single source acc'.reverse
  | 0, _, _, _, _, _, _, _, hf, _, _ => absurd hf (Nat.not_lt_zero _)
  | fuel + 1, _, _, c, _, source, hr, hs, hf, hb, h => by
      obtain ⟨hne, acc₁, escaped, c₁, hrun, hnext⟩ := quotedLines_step h
      obtain ⟨taken, text, hq⟩ := quotedRun_ok _ hb hrun
      have hr₁ : c₀.rest = source ++ taken ++ c₁.rest := by rw [hr, hq.rest, List.append_assoc]
      have hs₁ : QuotedSource single (source ++ taken) acc₁.reverse := by
        rw [hq.grown, List.reverse_append, List.reverse_reverse]
        exact hs.append hq.source
      rcases hnext with ⟨hquote, rfl, rfl⟩ | ⟨hquote, gap, c₂, hgap, h⟩
      · exact ⟨_, hr₁, hquote, hs₁⟩
      · have hlt := hq.shorter hne hb hquote hgap
        have hbound : c₂.bound = c.bound :=
          ((keeps_extendGap _ _ _ _ _).rel hgap).bound.trans
            ((keeps_quotedRun _ _ _ _).rel hrun).bound
        obtain ⟨skipped, hskipped, _, _, hspans⟩ := extendGap_spans _ hgap
        have hr₂ : c₀.rest = source ++ taken ++ skipped ++ c₂.rest := by rw [hr₁, hskipped]; simp
        cases escaped with
        | true =>
            -- an escape in the source leaves the text free
            obtain ⟨hsingle, hm⟩ := hq.broken rfl
            have hslash : '\\' ∈ source ++ taken ++ skipped := by simp [hm]
            exact quotedLines_source fuel hr₂ (.of_source hslash (by simp [hsingle])) (by omega)
              (by omega) h
        | false =>
            have hspan : gap.Spans skipped := hspans [] (Or.inl ⟨rfl, rfl⟩)
            refine quotedLines_source fuel hr₂ ?_ (by omega) (by omega) h
            rw [List.reverse_append]
            exact hs₁.append (hspan.verbatim fun x hx => by simp [hx])

theorem quoted_source {t : Token} {more : List Char} (hr : c.rest = quoteOf single :: more)
    (hb : c.rest.length < c.bound) (h : quoted single c = .ok (t, c')) :
    ∃ source text, t.kind = .scalar (if single then .singleQuoted else .doubleQuoted)
      (String.ofList text) ∧ t.start = c.mark ∧
      c.rest = quoteOf single :: (source ++ quoteOf single :: c'.rest) ∧
      t.stop.offset = c.mark.offset + bytes (quoteOf single :: (source ++ [quoteOf single])) ∧
      QuotedSource single source text := by
  have hbefore := (takes_quoted single).keeps.rel h
  obtain ⟨began, c₁, hm, h⟩ := ok_of_bind h
  cases hm
  obtain ⟨_, c₁, hskip, h⟩ := ok_of_bind h
  cases hskip
  obtain ⟨bound, c₂, hbound, h⟩ := ok_of_bind h
  cases hbound
  obtain ⟨acc, c₂, hlines, h⟩ := ok_of_bind h
  have hadvance : c.advance = { c with rest := more, mark := c.mark.next (quoteOf single) } := by
    simp [Cursor.advance, hr]
  rw [hr, List.length_cons] at hb
  obtain ⟨source, hsource, hhead, htext⟩ :=
    quotedLines_source _ (List.nil_append _).symm (.refl []) (by rw [hadvance]; simp only; omega)
    (by rw [hadvance]; simp only; omega) hlines
  obtain ⟨more', hmore'⟩ := List.head?_eq_some_iff.mp hhead
  obtain ⟨_, c₃, hskip, h⟩ := ok_of_bind h
  cases hskip
  obtain ⟨stop, c₃, hmark, h⟩ := ok_of_bind h
  cases hmark
  cases h
  have hrest : c.rest = quoteOf single :: (source ++ quoteOf single :: c₂.advance.rest) := by
    rw [hadvance] at hsource
    simp only at hsource
    rw [hr, hsource, hmore']
    simp [Cursor.advance, hmore']
  refine ⟨source, acc.reverse, rfl, rfl, hrest, ?_, htext⟩
  exact hbefore.offset (by simp [hrest])

end Quoted

end Scan

end BootConfig.Yaml
