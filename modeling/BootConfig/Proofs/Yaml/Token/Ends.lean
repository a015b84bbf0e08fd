import BootConfig.Proofs.Yaml.Token.Folding

/-!
# Where scanners end

Behind a token that is no quoted scalar stands the end of the text, a character other than a quote
in front of the cursor, or one behind it that begins no plain scalar.
-/

namespace BootConfig.Yaml

open Steps

/-! ## Quotes -/

def isQuote (c : Char) : Bool := c == '"' || c == '\''

theorem isQuote_of {p : Char → Bool} (hd : p '"' = false) (hs : p '\'' = false) {c : Char}
    (h : p c = true) : isQuote c = false := by
  cases hq : isQuote c with
  | false => rfl
  | true =>
      simp only [isQuote, Bool.or_eq_true, beq_iff_eq] at hq
      rcases hq with rfl | rfl
      · rw [hd] at h; cases h
      · rw [hs] at h; cases h

theorem isQuote_of_isBreak {c : Char} (h : isBreak c = true) : isQuote c = false :=
  isQuote_of rfl rfl h

theorem isQuote_of_isGap {c : Char} (h : isGap c = true) : isQuote c = false := isQuote_of rfl rfl h

theorem isQuote_of_isName {c : Char} (h : isName c = true) : isQuote c = false :=
  isQuote_of rfl rfl h

/-! ## Cursors -/

namespace Cursor

/-- The end of the text, or a place behind more characters, the last of them no quote. -/
def Closed (c c' : Cursor) : Prop :=
  c'.rest = [] ∨ ∃ taken x, c.rest = taken ++ x :: c'.rest ∧ isQuote x = false

/-- The same place, or one that is closed. -/
def Clear (c c' : Cursor) : Prop := c'.rest = c.rest ∨ c.Closed c'

/-- No plain scalar begins at the cursor. -/
def Startless (inFlow : Bool) (c : Cursor) : Prop :=
  ∀ x more, c.rest = x :: more → Lex.startsPlain inFlow x more.head? = false

variable {c c' c'' : Cursor}

theorem Before.closed (h : c.Before c') (h' : c'.Closed c'') : c.Closed c'' := by
  obtain ⟨taken, hr, _⟩ := h.passed
  rcases h' with hend | ⟨taken', x, hr', hx⟩
  · exact Or.inl hend
  · exact Or.inr ⟨taken ++ taken', x, by rw [hr, hr', List.append_assoc], hx⟩

theorem Closed.clear (h : c.Closed c') (h' : c'.Clear c'') : c.Closed c'' := by
  rcases h' with hsame | hend | ⟨taken', x', hr', hx'⟩
  · unfold Closed
    rw [hsame]
    exact h
  · exact Or.inl hend
  · rcases h with hend | ⟨taken, x, hr, _⟩
    · rw [hend] at hr'
      exact absurd hr'.symm (by simp)
    · exact Or.inr ⟨taken ++ x :: taken', x', by rw [hr, hr']; simp, hx'⟩

instance : Std.Refl Clear := ⟨fun _ => Or.inl rfl⟩

instance : Trans Clear Clear Clear := ⟨fun {c c' c''} h h' => by
  rcases h with hsame | h
  · unfold Clear Closed at h' ⊢
    rwa [hsame] at h'
  · exact Or.inr (h.clear h')⟩

theorem Startless.of_end {inFlow : Bool} (h : c.rest = []) : c.Startless inFlow :=
  fun x more hr => by
  rw [h] at hr
  cases hr

theorem closed_of_run (run : List Char) (hr : c.rest = run ++ c'.rest) (hne : run ≠ [])
    (h : ∀ x ∈ run, isQuote x = false) : c.Closed c' := by
  refine Or.inr ⟨run.dropLast, run.getLast hne, ?_, h _ (List.getLast_mem hne)⟩
  rw [hr]
  conv_lhs => rw [← List.dropLast_append_getLast hne]
  simp

theorem clear_of_run (run : List Char) (hr : c.rest = run ++ c'.rest)
    (h : ∀ x ∈ run, isQuote x = false) : c.Clear c' := by
  by_cases hne : run = []
  · exact Or.inl (by rw [hr, hne]; rfl)
  · exact Or.inr (closed_of_run run hr hne h)

end Cursor

namespace Scan

variable {α β : Type} {s : Scan α} {f : α → Scan β} {c c' : Cursor}

abbrev Closes (s : Scan α) : Prop := Along Cursor.Closed s

abbrev Clears (s : Scan α) : Prop := Along Cursor.Clear s

theorem Keeps.closes (hs : Keeps s) (hf : ∀ a, Closes (f a)) : Closes (s >>= f) :=
  Along.bind_of (fun _ _ _ h h' => h.closed h') hs hf

theorem Closes.bind (hs : Closes s) (hf : ∀ a, Clears (f a)) : Closes (s >>= f) :=
  Along.bind_of (fun _ _ _ h h' => h.clear h') hs hf

theorem Stays.clears (hs : Stays s) : Clears s := fun c a c' h => by
  rw [hs c a c' h]
  exact Std.Refl.refl c

theorem clears_fail (cause : Cause) (activity : Activity) (began : Mark) :
    Clears (fail cause activity began : Scan α) :=
  .bind stays_mark.clears fun _ => .throw _

/-! ## Runs and breaks -/

theorem closed_takeWhile {p : Char → Bool} (hp : ∀ x, p x = true → isQuote x = false)
    {run : List Char} (h : takeWhile p c = .ok (run, c')) (hne : run ≠ []) : c.Closed c' := by
  obtain ⟨hrun, rfl⟩ := takeWhile_ok h
  refine Cursor.closed_of_run run ?_ hne fun x hx => hp x ?_
  · rw [hrun]
    exact List.takeWhile_append_dropWhile.symm
  · rw [hrun] at hx
    exact List.all_eq_true.mp List.all_takeWhile x hx

theorem clears_takeWhile {p : Char → Bool} (hp : ∀ x, p x = true → isQuote x = false) :
    Clears (takeWhile p) := by
  intro c run c' h
  by_cases hne : run = []
  · obtain ⟨hrun, rfl⟩ := takeWhile_ok h
    refine Or.inl ?_
    have heq := List.takeWhile_append_dropWhile (p := p) (l := c.rest)
    rw [← hrun, hne] at heq
    exact heq
  · exact Or.inr (closed_takeWhile hp h hne)

theorem clears_skipWhile {p : Char → Bool} (hp : ∀ x, p x = true → isQuote x = false) :
    Clears (skipWhile p) :=
  .bind (clears_takeWhile hp) fun _ => .pure _

theorem lineEnd_takeWhile {line : List Char}
    (h : takeWhile (fun x => !isBreak x) c = .ok (line, c')) : atLineEnd c'.rest.head? = true := by
  obtain ⟨_, rfl⟩ := takeWhile_ok h
  have hnot := List.head?_dropWhile_not (fun x => !isBreak x) c.rest
  change atLineEnd (c.rest.dropWhile fun x => !isBreak x).head? = true
  cases hh : (c.rest.dropWhile fun x => !isBreak x).head? with
  | none => rfl
  | some x =>
      rw [hh] at hnot
      simpa [atLineEnd] using hnot

theorem clears_takeBreak : Clears takeBreak := by
  intro c found c' h
  rcases takeBreak_ok h with ⟨rfl, _⟩ | ⟨_, taken, _, _, hr, _, hall, _⟩
  · exact Or.inl rfl
  · exact Cursor.clear_of_run taken hr fun x hx => isQuote_of_isBreak (hall x hx)

theorem closed_takeBreak {found : List Char} (hc : atLineEnd c.rest.head? = true)
    (h : takeBreak c = .ok (found, c')) : c.Closed c' := by
  rcases takeBreak_ok h with ⟨rfl, hno⟩ | ⟨_, taken, _, _, hr, hne, hall, _⟩
  · refine Or.inl ?_
    cases hrest : c'.rest with
    | nil => rfl
    | cons x xs =>
        rw [hrest] at hc hno
        have hx : isBreak x = false := hno
        simp [atLineEnd, hx] at hc
  · exact Cursor.closed_of_run taken hr hne fun x hx => isQuote_of_isBreak (hall x hx)

theorem closed_skipBreak (hc : atLineEnd c.rest.head? = true) {u : Unit}
    (h : skipBreak c = .ok (u, c')) : c.Closed c' := by
  change (takeBreak >>= fun _ => pure ()) c = _ at h
  obtain ⟨_, c₁, htake, h⟩ := ok_of_bind h
  cases h
  exact closed_takeBreak hc htake

/-- The line break is taken, or the text has ended. -/
theorem closes_skipLineEnd (activity : Activity) (began : Mark) :
    Closes (skipLineEnd activity began) := by
  have hbreak : ∀ c u c', atLineEnd c.rest.head? = true → (do
      if atBreak (← peek) then
        need 2
        skipBreak : Scan Unit) c = .ok (u, c') → c.Closed c' := by
    intro c u c' hc h
    obtain ⟨next, c₁, hpeek, h⟩ := ok_of_bind h
    cases hpeek
    split at h
    · obtain ⟨_, c₂, hneed, h⟩ := ok_of_bind h
      rw [stays_need 2 _ _ _ hneed] at h
      exact closed_skipBreak hc h
    · rename_i hno
      cases h
      cases hrest : c.rest with
      | nil => exact Or.inl hrest
      | cons x xs =>
          rw [hrest] at hc hno
          exact absurd (by simpa [atBreak, atLineEnd] using hc) hno
  have hrest : Closes (do
      if !atLineEnd (← peek) then fail .missingLineEnd activity began
      if atBreak (← peek) then
        need 2
        skipBreak) := by
    intro c u c' h
    obtain ⟨next, c₁, hpeek, h⟩ := ok_of_bind h
    cases hpeek
    split at h
    · obtain ⟨_, _, hfail, _⟩ := ok_of_bind h
      exact absurd hfail fails_fail
    · rename_i hno
      exact hbreak c u c' (by simpa using hno) h
  exact (keeps_need 1).closes fun _ => (keeps_skipWhile _).closes fun _ =>
    stays_peek.keeps.closes fun _ =>
    .ite (fun _ => (keeps_skipWhile _).closes fun _ => hrest) fun _ => hrest

/-! ## Directives, names and tags -/

theorem closes_directive : Closes directive := by
  refine stays_mark.keeps.closes fun began => takes_skip.keeps.closes fun _ =>
    (keeps_directiveName _).closes fun _ => ?_
  have hend : ∀ kind : Token.Kind, Closes (do
      let stop ← mark
      skipLineEnd .directive began
      return (⟨kind, began, stop⟩ : Token)) :=
    fun _ => stays_mark.keeps.closes fun _ => (closes_skipLineEnd _ _).bind fun _ => .pure _
  exact .ite (fun _ => (keeps_version _).closes hend) fun _ =>
    .ite (fun _ => (keeps_handleDefinition _).closes hend) fun _ => (keeps_fail _ _ _).closes hend

theorem closes_anchorName (activity : Activity) (began : Mark) :
    Closes (anchorName activity began) := by
  refine takes_skip.keeps.closes fun _ => (keeps_need 1).closes fun _ => ?_
  intro c name c' h
  obtain ⟨run, c₁, hrun, h⟩ := ok_of_bind h
  obtain ⟨next, c₂, hpeek, h⟩ := ok_of_bind h
  cases hpeek
  split at h
  · obtain ⟨_, _, hfail, _⟩ := ok_of_bind h
    exact absurd hfail fails_fail
  · rename_i hname
    cases h
    simp only [Bool.or_eq_true, not_or, List.isEmpty_iff] at hname
    exact closed_takeWhile (fun _ => isQuote_of_isName) hrun hname.1

theorem closes_anchor : Closes anchor :=
  stays_mark.keeps.closes fun _ => (closes_anchorName _ _).bind fun _ =>
    .bind stays_mark.clears fun _ => .pure _

theorem closes_aliasOf : Closes aliasOf :=
  stays_mark.keeps.closes fun _ => (closes_anchorName _ _).bind fun _ =>
    .bind stays_mark.clears fun _ => .pure _

theorem startsPlain_of_gap {inFlow : Bool} {x : Char} {next : Option Char} (h : isGap x = true) :
    Lex.startsPlain inFlow x next = false := by
  cases hs : Lex.startsPlain inFlow x next with
  | false => rfl
  | true =>
      rw [(startsPlain_taken hs).1] at h
      cases h

/-- A tag may end with a quote, but a gap or a comma follows. -/
theorem startless_tag {inFlow : Bool} {t : Token} (h : tag inFlow c = .ok (t, c')) :
    c'.Startless inFlow := by
  obtain ⟨began, c₁, _, h⟩ := ok_of_bind h
  obtain ⟨⟨handle, suffix⟩, c₂, _, h⟩ := ok_of_bind h
  obtain ⟨_, c₃, _, h⟩ := ok_of_bind h
  obtain ⟨next, c₄, hpeek, h⟩ := ok_of_bind h
  cases hpeek
  split at h
  · obtain ⟨_, _, hfail, _⟩ := ok_of_bind h
    exact absurd hfail fails_fail
  · rename_i hnext
    obtain ⟨_, c₅, hmark, h⟩ := ok_of_bind h
    cases hmark
    cases h
    intro x more hr
    simp only [hr, List.head?_cons, Option.some.injEq, Bool.and_eq_true, Bool.not_eq_true', not_and,
      Bool.not_eq_false] at hnext
    by_cases hcomma : (inFlow && decide (x = ',')) = true
    · simp only [Bool.and_eq_true, decide_eq_true_eq] at hcomma
      rw [hcomma.2]
      simp [Lex.startsPlain, isIndicator]
    · exact startsPlain_of_gap (by simpa [atGapOrEnd] using hnext (by simpa using hcomma))

/-! ## Block scalars -/

theorem clears_skipIndentation (indent : Option Nat) : (fuel : Nat) →
    Clears (skipIndentation indent fuel)
  | 0 => .pure _
  | fuel + 1 => .bind (stays_need 1).clears fun _ => by
      intro c u c' h
      rw [get_bind] at h
      split at h
      · rename_i hc
        simp only [Bool.and_eq_true, decide_eq_true_eq] at hc
        obtain ⟨more, hr⟩ := List.head?_eq_some_iff.mp hc.1
        obtain ⟨_, c₁, hskip, h⟩ := ok_of_bind h
        cases hskip
        have hone : c.Clear c.advance :=
          Cursor.clear_of_run [' '] (by simp [Cursor.advance, hr]) (by simp [isQuote])
        exact Trans.trans hone ((clears_skipIndentation indent fuel).rel h)
      · cases h
        exact Std.Refl.refl c

theorem clears_emptyLines (indent : Option Nat) (began : Mark) :
    (fuel : Nat) → (breaks : List Char) → (widest : Nat) → (stop : Mark) →
    Clears (emptyLines indent began fuel breaks widest stop)
  | 0, _, _, _ => .pure _
  | fuel + 1, _, _, _ =>
      .bind stays_bound.clears fun _ => .bind (clears_skipIndentation _ _) fun _ => .get fun _ =>
        .andThen (fun _ => clears_fail _ _ _)
        fun _ => .ite (fun _ => .pure _) fun _ => .bind (stays_need 2).clears fun _ =>
          .bind clears_takeBreak fun _ =>
          .bind stays_mark.clears fun _ => clears_emptyLines indent began fuel _ _ _

theorem clears_blockLines (folded : Bool) (indent : Nat) (began : Mark) :
    (fuel : Nat) → (afterBlank : Bool) → (b : Block) →
    Clears (blockLines folded indent began fuel afterBlank b)
  | 0, _, _ => .pure _
  | fuel + 1, _, _ => .get fun c₀ => .ite (fun _ => .pure _) fun _ => by
      intro c b c' h
      obtain ⟨line, c₁, hline, h⟩ := ok_of_bind h
      obtain ⟨_, c₂, hneed, h⟩ := ok_of_bind h
      rw [stays_need 2 _ _ _ hneed] at h
      obtain ⟨lastBreak, c₃, hbreak, h⟩ := ok_of_bind h
      have hclosed : c.Closed c₃ :=
        ((keeps_takeWhile _).rel hline).closed (closed_takeBreak (lineEnd_takeWhile hline) hbreak)
      refine Or.inr (hclosed.clear (Along.rel (.bind stays_mark.clears fun _ => ?_) h))
      exact .bind (clears_emptyLines _ _ _ _ _ _) fun _ =>
        clears_blockLines folded indent began fuel _ _

theorem closes_block (folded : Bool) (parent : Int) : Closes (block folded parent) :=
  stays_mark.keeps.closes fun _ => takes_skip.keeps.closes fun _ =>
    (keeps_blockHeader _).closes fun _ =>
    (closes_skipLineEnd _ _).bind fun _ => .bind stays_bound.clears fun _ =>
      .bind stays_mark.clears fun _ =>
      .bind (clears_emptyLines _ _ _ _ _ _) fun _ => .bind (stays_need 1).clears fun _ =>
        .bind stays_bound.clears fun _ =>
        .bind (clears_blockLines _ _ _ _ _ _) fun _ => .pure _

/-! ## Plain scalars -/

theorem isQuote_of_spans {taken : List Char} (h : ∀ x ∈ taken, isGap x = true) :
    ∀ x ∈ taken, isQuote x = false :=
  fun x hx => isQuote_of_isGap (h x hx)

section Plain

variable {inFlow : Bool} {indent fuel : Nat} {began stop : Mark} {acc : List Char} {gap : Gap}

/-- Where a run of a plain scalar ends: at a gap, or where no plain scalar begins. -/
theorem startless_plainRun : (fuel : Nat) → {acc run : List Char} → {c c' : Cursor} →
    c.rest.length < fuel → plainRun inFlow began fuel acc c = .ok (run, c') → c'.Startless inFlow
  | 0, _, _, _, _, hf, _ => absurd hf (Nat.not_lt_zero _)
  | fuel + 1, _, _, c, _, hf, h => by
      rcases plainRun_step h with ⟨_, rfl, hstop⟩ | ⟨x, hr, h⟩
      · intro x more hr
        rcases hstop x more hr with hgap | hend
        · exact startsPlain_of_gap hgap
        · cases hs : Lex.startsPlain inFlow x more.head? with
          | false => rfl
          | true =>
              rw [(startsPlain_taken hs).2.1] at hend
              cases hend
      · rw [hr, List.length_cons] at hf
        exact startless_plainRun fuel (Nat.lt_of_succ_lt_succ hf) h

/-- A plain scalar ends in front of something else, or behind a gap. -/
theorem ends_plainLines : (fuel : Nat) → {acc : List Char} → {stop : Mark} → {gap : Gap} →
    {r : List Char × Mark × Bool} → {c c' : Cursor} → c.rest.length < fuel →
    c.rest.length < c.bound → plainLines inFlow indent began fuel acc stop gap c = .ok (r, c') →
    c'.Startless inFlow ∨ c.Clear c'
  | 0, _, _, _, _, _, _, hf, _, _ => absurd hf (Nat.not_lt_zero _)
  | fuel + 1, _, _, _, _, c, _, hf, hb, h => by
      rcases plainLines_step h with ⟨_, _, rfl⟩ | ⟨run, c₁, acc₁, stop₁, gap₁, hrun, _, hnext⟩
      · exact Or.inr (Std.Refl.refl _)
      · have hbefore := (keeps_plainRun _ _ _ _).rel hrun
        rcases hnext with ⟨_, _, rfl⟩ | ⟨hat, gap₂, c₂, hgap, hlast⟩
        · exact Or.inl (startless_plainRun c.bound hb hrun)
        · obtain ⟨taken, hr, hall, hne, _⟩ := extendGap_spans _ hgap
          have hne : taken ≠ [] := hne (by omega) hat
          have hclosed : c.Closed c₂ :=
            hbefore.closed (Cursor.closed_of_run taken hr hne (isQuote_of_spans hall))
          rcases hlast with ⟨_, rfl⟩ | h
          · exact Or.inr (Or.inr hclosed)
          · have hlen : c₂.rest.length < c.rest.length := by
              have h₁ := hbefore.rest
              have h₂ : c₁.rest.length = taken.length + c₂.rest.length := by
                rw [hr, List.length_append]
              have h₃ := List.length_pos_iff.mpr hne
              omega
            have hbound : c₂.bound = c.bound :=
              ((keeps_extendGap _ _ _ _ _).rel hgap).bound.trans hbefore.bound
            rcases ends_plainLines fuel (by omega) (by omega) h with hs | hclear
            · exact Or.inl hs
            · exact Or.inr (Or.inr (hclosed.clear hclear))

theorem ends_plain {r : Token × Bool} {x : Char} {more : List Char} (hr : c.rest = x :: more)
    (hx : Lex.startsPlain inFlow x more.head? = true) (hd : c.atDocumentMark = false)
    (hb : c.rest.length < c.bound)
    (h : plain inFlow indent c = .ok (r, c')) : c'.Startless inFlow ∨ c.Closed c' := by
  have hpast := past_plain hr hx hd (Nat.zero_lt_of_lt hb) h
  obtain ⟨began, c₁, hm, h⟩ := ok_of_bind h
  cases hm
  obtain ⟨bound, c₁, hbound, h⟩ := ok_of_bind h
  cases hbound
  obtain ⟨_, c₁, hl, h⟩ := ok_of_bind h
  cases h
  rcases ends_plainLines _ hb hb hl with hs | hsame | hclosed
  · exact Or.inl hs
  · have := hpast.taken (by rw [hr]; exact List.cons_ne_nil _ _)
    rw [hsame] at this
    exact absurd this (Nat.lt_irrefl _)
  · exact Or.inr hclosed

end Plain

end Scan

end BootConfig.Yaml
