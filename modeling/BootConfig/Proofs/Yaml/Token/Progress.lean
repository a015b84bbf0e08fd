import BootConfig.Proofs.Yaml.Token.Scanned

/-!
# The lexer ends

Each step of a lexer takes a character or comes to the end of the text, so that a run of more steps
than there are characters ends there or with a problem. A text with a forbidden character has no end
that could be reached.
-/

namespace BootConfig.Yaml

open Steps
open Scan (Keeps Takes Stays)

/-- A later lexer of the same text that has not come to the end in between. Its cursors are related,
and no end of the stream is among the new tokens. -/
structure Lexer.Onward (R : Cursor → Cursor → Prop) (l l' : Lexer) : Prop where
  cursor : R l.cursor l'.cursor
  started : l'.started = l.started
  ended : l'.ended = l.ended
  tokens : ∀ t ∈ l'.tokens, t ∈ l.tokens ∨ t.kind ≠ .streamEnd

namespace Lexer.Onward

variable {R S T : Cursor → Cursor → Prop} {l l' l'' : Lexer}

theorem imp (h : ∀ c c', R c c' → S c c') (hl : Onward R l l') : Onward S l l' :=
  ⟨h _ _ hl.cursor, hl.started, hl.ended, hl.tokens⟩

theorem comp (h : ∀ c c' c'', R c c' → S c' c'' → T c c'') (hl : Onward R l l')
    (hl' : Onward S l' l'') : Onward T l l'' where
  cursor := h _ _ _ hl.cursor hl'.cursor
  started := hl'.started.trans hl.started
  ended := hl'.ended.trans hl.ended
  tokens t ht := (hl'.tokens t ht).elim (hl.tokens t) Or.inr

theorem refl (l : Lexer) : Onward Eq l l := ⟨rfl, rfl, rfl, fun _ => Or.inl⟩

instance : Std.Refl (Onward Eq) := ⟨refl⟩

instance [Std.Refl R] : Std.Refl (Onward R) :=
  ⟨fun _ => ⟨Std.Refl.refl _, rfl, rfl, fun _ => Or.inl⟩⟩

instance [Trans R R R] : Trans (Onward R) (Onward R) (Onward R) :=
  ⟨comp fun _ _ _ h h' => Trans.trans h h'⟩

end Lexer.Onward

/-- The possible keys have changed and nothing else. -/
def Lexer.Reconsidered (l l' : Lexer) : Prop := ∃ pending, l' = { l with pending := pending }

namespace Lexer.Reconsidered

instance : Std.Refl Reconsidered := ⟨fun l => ⟨l.pending, rfl⟩⟩

instance : Trans Reconsidered Reconsidered Reconsidered :=
  ⟨fun ⟨_, h⟩ ⟨pending, h'⟩ => ⟨pending, by rw [h', h]⟩⟩

end Lexer.Reconsidered

/-- Some possible keys are given up and nothing else changes. -/
def Lexer.Forgets (l l' : Lexer) : Prop :=
  ∃ pending, pending.Sublist l.pending ∧ l' = { l with pending := pending }

theorem Lexer.Forgets.reconsidered {l l' : Lexer} (h : l.Forgets l') : l.Reconsidered l' := by
  obtain ⟨pending, _, rfl⟩ := h
  exact ⟨pending, rfl⟩

namespace Lex

variable {α β : Type} {x : Lex α} {f : α → Lex β}

/-! ## Parts of a step -/

/-- The cursor stays where it is. -/
abbrev Rests (x : Lex α) : Prop := Along (Lexer.Onward Eq) x

/-- The cursor moves forward, if at all. -/
abbrev Keeps (x : Lex α) : Prop := Along (Lexer.Onward Cursor.Before) x

/-- The cursor moves forward. -/
abbrev Takes (x : Lex α) : Prop := Along (Lexer.Onward Cursor.Past) x

theorem Rests.keeps (hx : Rests x) : Keeps x :=
  hx.imp fun _ _ h => h.imp fun c _ h => by cases h; exact Std.Refl.refl c

theorem Rests.takes (hx : Rests x) (hf : ∀ a, Takes (f a)) : Takes (x >>= f) :=
  Along.bind_of (fun _ _ _ h h' => h.comp (fun _ _ _ h h' => by cases h; exact h') h') hx hf

theorem Takes.bind (hx : Takes x) (hf : ∀ a, Keeps (f a)) : Takes (x >>= f) :=
  Along.bind_of (fun _ _ _ h h' => h.comp (fun _ _ _ h h' => h.before h') h') hx hf

theorem scan_ok {s : Scan α} {l l' : Lexer} {a : α} (h : scan s l = .ok (a, l')) :
    ∃ c, s l.cursor = .ok (a, c) ∧ l' = { l with cursor := c } := by
  unfold scan at h
  cases hc : s l.cursor with
  | error p => rw [hc] at h; cases h
  | ok r =>
      rw [hc] at h
      cases h
      exact ⟨_, rfl, rfl⟩

theorem scan_along {R : Cursor → Cursor → Prop} {s : Scan α} (hs : Along R s) :
    Along (Lexer.Onward R) (scan s) := by
  intro l a l' h
  obtain ⟨c, hc, rfl⟩ := scan_ok h
  exact ⟨hs _ _ _ hc, rfl, rfl, fun _ => Or.inl⟩

theorem rests_mark : Rests mark := fun _ _ _ h => by cases h; exact Std.Refl.refl _

theorem rests_inFlow : Rests inFlow := fun _ _ _ h => by cases h; exact Std.Refl.refl _

theorem rests_emit {t : Token} (ht : t.kind ≠ .streamEnd) : Rests (emit t) :=
  .modify fun l => ⟨rfl, rfl, rfl, fun t' ht' => by
    rcases List.mem_cons.mp ht' with rfl | ht'
    · exact Or.inr ht
    · exact Or.inl ht'⟩

theorem rests_allowKey (allowed : Bool) : Rests (allowKey allowed) :=
  .modify fun _ => ⟨rfl, rfl, rfl, fun _ => Or.inl⟩

/-- A reader that changes the possible keys and nothing else. -/
abbrev Reconsiders (x : Lex α) : Prop := Along Lexer.Reconsidered x

theorem Reconsiders.rests (hx : Reconsiders x) : Rests x := hx.imp fun l l' h => by
  obtain ⟨pending, rfl⟩ := h
  exact ⟨rfl, rfl, rfl, fun _ => Or.inl⟩

theorem fails_missingColon {k : PendingKey} {l : Lexer} {r : Unit × Lexer} :
    missingColon k l ≠ .ok r := fun h => by
  obtain ⟨_, _, _, h⟩ := ok_of_bind h
  cases h

theorem forgets_expireKeys : Along Lexer.Forgets expireKeys := by
  intro l _ l' h
  unfold expireKeys at h
  rw [get_bind] at h
  split at h
  · cases hk : l.pending.find? fun k => k.required && k.isStale l.mark with
    | some k =>
        simp only [hk] at h
        exact absurd h fails_missingColon
    | none =>
        simp only [hk] at h
        cases h
        exact ⟨_, List.filter_sublist, rfl⟩
  · cases h
    exact ⟨_, List.Sublist.refl _, rfl⟩

theorem forgets_dropKey : Along Lexer.Forgets dropKey := by
  intro l _ l' h
  unfold dropKey at h
  rw [get_bind] at h
  cases hk : l.key? with
  | none =>
      simp only [hk] at h
      cases h
      exact ⟨_, List.Sublist.refl _, rfl⟩
  | some k =>
      simp only [hk] at h
      split at h
      · obtain ⟨_, _, h, _⟩ := ok_of_bind h
        exact absurd h fails_missingColon
      · cases h
        exact ⟨_, List.tail_sublist _, rfl⟩

theorem reconsiders_expireKeys : Reconsiders expireKeys :=
  forgets_expireKeys.imp fun _ _ h => h.reconsidered

theorem reconsiders_dropKey : Reconsiders dropKey := forgets_dropKey.imp fun _ _ h => h.reconsidered

theorem reconsiders_saveKey : Reconsiders saveKey := .get fun _ =>
  .ite (fun _ => .bind reconsiders_dropKey fun _ => .modify fun _ => ⟨_, rfl⟩) fun _ => .pure _

theorem onward_insertAt (l : Lexer) (number : Nat) {t : Token} (ht : t.kind ≠ .streamEnd) :
    l.Onward Eq (l.insertAt number t) :=
  ⟨rfl, rfl, rfl, fun t' ht' => by
    rcases List.mem_append.mp ht' with ht' | ht'
    · exact Or.inl (List.mem_of_mem_take ht')
    · rcases List.mem_cons.mp ht' with rfl | ht'
      · exact Or.inr ht
      · exact Or.inl (List.mem_of_mem_drop ht')⟩

theorem rests_openBlock (column : Nat) (number : Option Nat) {kind : Token.Kind}
    (hk : kind ≠ .streamEnd) (place : Mark) :
    Rests (openBlock column number kind place) := .modify fun l => by
  split
  · cases number with
    | none =>
        refine ⟨rfl, rfl, rfl, fun t ht => ?_⟩
        rcases List.mem_cons.mp ht with rfl | ht
        · exact Or.inr hk
        · exact Or.inl ht
    | some n =>
        have h :=
          onward_insertAt { l with columns := column :: l.columns } n (t := ⟨kind, place, place⟩) hk
        exact ⟨rfl, rfl, rfl, h.tokens⟩
  · exact .refl l

theorem rests_closeBlocks (column : Int) : Rests (closeBlocks column) := .modify fun l => by
  split
  · exact .refl l
  · refine ⟨rfl, rfl, rfl, fun t ht => ?_⟩
    rcases List.mem_append.mp ht with ht | ht
    · exact Or.inr (by simp [List.eq_of_mem_replicate ht])
    · exact Or.inl ht

/-! ## Gaps -/

theorem keeps_skipBlanks : Keeps skipBlanks := .get fun _ =>
  scan_along (.bind (Scan.keeps_need 1) fun _ => Scan.keeps_skipWhile _)

theorem keeps_skipGap : (fuel : Nat) → Keeps (skipGap fuel)
  | 0 => .pure _
  | fuel + 1 => by
      have hmark : Scan.Keeps (do
          Scan.need 1
          let c ← get
          if c.mark.column = 0 && c.rest.head? = some byteOrderMark then Scan.skip) :=
        .bind (Scan.keeps_need 1) fun _ => .get fun _ =>
          .ite (fun _ => Scan.takes_skip.keeps) fun _ => .pure _
      have hcomment : Scan.Keeps (do
          if (← Scan.peek) = some '#' then Scan.skipWhile fun c => !isBreak c
          Scan.peek) :=
        .bind Scan.stays_peek.keeps fun _ => .andThen (fun _ => Scan.keeps_skipWhile _) fun _ =>
          Scan.stays_peek.keeps
      have hbreak : Scan.Keeps (do
          Scan.need 2
          Scan.skipBreak) := .bind (Scan.keeps_need 2) fun _ => Scan.keeps_skipBreak
      exact .bind (scan_along hmark) fun _ => .bind keeps_skipBlanks fun _ =>
        .bind (scan_along hcomment) fun _ =>
        .ite (fun _ => .bind (scan_along hbreak) fun _ => .bind rests_inFlow.keeps fun _ =>
          .andThen (fun _ => (rests_allowKey true).keeps) fun _ => keeps_skipGap fuel) fun _ =>
            .pure _

/-! ## Tokens -/

theorem takes_indicator {kind : Token.Kind} (hk : kind ≠ .streamEnd) (n : Nat) :
    Takes (indicator kind (n + 1)) :=
  rests_mark.takes fun _ => Takes.bind (scan_along (Scan.takes_skipMany n)) fun _ =>
    .bind rests_mark.keeps fun _ =>
    (rests_emit hk).keeps

theorem gives_scan {p : α → Prop} {s : Scan α} (hs : Gives p s) : Gives p (scan s) := by
  intro l a l' h
  obtain ⟨c, hc, _⟩ := scan_ok h
  exact hs _ _ _ hc

theorem takes_emit {s : Scan Token} (hs : Scan.Takes s) (hk : Scan.GoesOn s) :
    Takes (scan s >>= emit) := by
  intro l _ l' h
  obtain ⟨t, l₁, hscan, h⟩ := ok_of_bind h
  have ht := gives_scan hk _ _ _ hscan
  exact ((scan_along hs).rel hscan).comp (fun _ _ _ h h' => by cases h'; exact h)
    ((rests_emit ht).rel h)

theorem takes_directive : Takes directive :=
  (rests_closeBlocks _).takes fun _ => reconsiders_dropKey.rests.takes fun _ =>
    (rests_allowKey _).takes fun _ =>
    takes_emit Scan.takes_directive Scan.goesOn_directive

theorem takes_documentMark {kind : Token.Kind} (hk : kind ≠ .streamEnd) :
    Takes (documentMark kind) :=
  (rests_closeBlocks _).takes fun _ => reconsiders_dropKey.rests.takes fun _ =>
    (rests_allowKey _).takes fun _ => takes_indicator hk 2

theorem takes_flowStart {kind : Token.Kind} (hk : kind ≠ .streamEnd) : Takes (flowStart kind) :=
  reconsiders_saveKey.rests.takes fun _ =>
    Rests.takes (.modify fun _ => ⟨rfl, rfl, rfl, fun _ => Or.inl⟩) fun _ =>
    (rests_allowKey _).takes fun _ => takes_indicator hk 0

theorem takes_flowEnd {kind : Token.Kind} (hk : kind ≠ .streamEnd) : Takes (flowEnd kind) :=
  reconsiders_dropKey.rests.takes fun _ =>
    Rests.takes (.modify fun _ => ⟨rfl, rfl, rfl, fun _ => Or.inl⟩) fun _ =>
    (rests_allowKey _).takes fun _ => takes_indicator hk 0

theorem takes_flowEntry : Takes flowEntry :=
  reconsiders_dropKey.rests.takes fun _ => (rests_allowKey _).takes fun _ =>
    takes_indicator (by simp) 0

theorem rests_openBlockHere {kind : Token.Kind} (hk : kind ≠ .streamEnd) (otherwise : Cause) :
    Rests (openBlockHere kind otherwise) :=
  .get fun _ =>
    .ite (fun _ => .andThen (fun _ => .throw _) fun _ => rests_openBlock _ _ hk _) fun _ => .pure _

theorem takes_blockEntry : Takes blockEntry :=
  (rests_openBlockHere (by simp) _).takes fun _ => reconsiders_dropKey.rests.takes fun _ =>
    (rests_allowKey _).takes fun _ =>
    takes_indicator (by simp) 0

theorem takes_keyIndicator : Takes keyIndicator :=
  (rests_openBlockHere (by simp) _).takes fun _ => reconsiders_dropKey.rests.takes fun _ =>
    rests_inFlow.takes fun _ =>
    (rests_allowKey _).takes fun _ => takes_indicator (by simp) 0

theorem takes_valueIndicator : Takes valueIndicator := .get fun l => by
  cases l.key? with
  | some k =>
      exact Rests.takes (.modify fun l => onward_insertAt l _ (by simp)) fun _ =>
        (rests_openBlock _ _ (by simp) _).takes fun _ =>
        Rests.takes (.modify fun _ => ⟨rfl, rfl, rfl, fun _ => Or.inl⟩) fun _ =>
          (rests_allowKey _).takes fun _ =>
          takes_indicator (by simp) 0
  | none =>
      exact (rests_openBlockHere (by simp) _).takes fun _ => (rests_allowKey _).takes fun _ =>
        takes_indicator (by simp) 0

theorem takes_keyToken {s : Scan Token} (hs : Scan.Takes s) (hk : Scan.GoesOn s) :
    Takes (keyToken s) :=
  reconsiders_saveKey.rests.takes fun _ => (rests_allowKey _).takes fun _ => takes_emit hs hk

theorem past_plainScalar {l l' : Lexer} {c : Char} {more : List Char}
    (hr : l.cursor.rest = c :: more) (hs : startsPlain l.inFlow c more.head? = true)
    (hd : l.cursor.atDocumentMark = false) (hb : 0 < l.cursor.bound)
    (h : plainScalar l = .ok ((), l')) : l.Onward Cursor.Past l' := by
  obtain ⟨_, l₁, hsave, h⟩ := ok_of_bind h
  obtain ⟨pending, rfl⟩ := reconsiders_saveKey.rel hsave
  obtain ⟨_, l₂, hallow, h⟩ := ok_of_bind h
  cases hallow
  rw [get_bind] at h
  obtain ⟨⟨token, broken⟩, l₃, hscan, h⟩ := ok_of_bind h
  have ht := gives_scan (Scan.goesOn_plain _ _) _ _ _ hscan
  obtain ⟨c', hc, rfl⟩ := scan_ok hscan
  have hpast : l.Onward Cursor.Past { l with pending, keyAllowed := false, cursor := c' } :=
    ⟨Scan.past_plain hr hs hd hb hc, rfl, rfl, fun _ => Or.inl⟩
  have hend : Rests (do
      emit token
      if broken then allowKey true) :=
        .bind (rests_emit ht) fun _ => .ite (fun _ => rests_allowKey _) fun _ => .pure _
  exact hpast.comp (fun _ _ _ h h' => by cases h'; exact h) (hend.rel h)

theorem takes_blockScalar (folded : Bool) : Takes (blockScalar folded) :=
  reconsiders_dropKey.rests.takes fun _ => (rests_allowKey _).takes fun _ => .get fun _ =>
    takes_emit (Scan.takes_block _ _) (Scan.goesOn_block _ _)

theorem past_tokenAt {l l' : Lexer} {c : Char} {more : List Char} (hr : l.cursor.rest = c :: more)
    (hb : 0 < l.cursor.bound)
    (h : tokenAt c more.head? l = .ok ((), l')) : l.Onward Cursor.Past l' := by
  have hite : ∀ {p : Prop} [Decidable p] {x y : Lex Unit}, Takes x →
      (¬p → y l = .ok ((), l') → l.Onward Cursor.Past l') →
      (if p then x else y) l = .ok ((), l') → l.Onward Cursor.Past l' := by
    intro p _ x y hx hy h
    split at h
    · exact hx.rel h
    · exact hy ‹_› h
  unfold tokenAt at h
  rw [get_bind] at h
  refine hite takes_directive (fun _ =>
    hite (takes_documentMark (by split <;> simp)) fun hd => ?_) h
  refine hite (takes_flowStart (by simp)) fun _ => hite (takes_flowStart (by simp)) fun _ => ?_
  refine hite (takes_flowEnd (by simp)) fun _ => hite (takes_flowEnd (by simp)) fun _ =>
    hite takes_flowEntry fun _ => ?_
  refine hite takes_blockEntry fun _ => hite takes_keyIndicator fun _ =>
    hite takes_valueIndicator fun _ => ?_
  refine hite (takes_keyToken Scan.takes_aliasOf Scan.goesOn_aliasOf) fun _ => ?_
  refine hite (takes_keyToken Scan.takes_anchor Scan.goesOn_anchor) fun _ => ?_
  refine hite (takes_keyToken (Scan.takes_tag _) (Scan.goesOn_tag _)) fun _ => ?_
  refine hite (takes_blockScalar _) fun _ => hite (takes_blockScalar _) fun _ => ?_
  refine hite (takes_keyToken (Scan.takes_quoted _) (Scan.goesOn_quoted _)) fun _ => ?_
  refine hite (takes_keyToken (Scan.takes_quoted _) (Scan.goesOn_quoted _)) fun _ h => ?_
  split at h
  · rename_i hs
    exact past_plainScalar hr hs (by simpa using hd) hb h
  · cases h

/-! ## Steps -/

theorem ended_streamEnd {l l' : Lexer} (h : streamEnd l = .ok ((), l')) : l'.ended = true := by
  obtain ⟨_, l₁, _, h⟩ := ok_of_bind h
  obtain ⟨_, l₂, _, h⟩ := ok_of_bind h
  obtain ⟨_, l₃, _, h⟩ := ok_of_bind h
  obtain ⟨_, l₄, _, h⟩ := ok_of_bind h
  obtain ⟨_, l₅, _, h⟩ := ok_of_bind h
  obtain ⟨_, l₆, _, h⟩ := ok_of_bind h
  cases h
  rfl

end Lex

/-- Where the end of the text can be seen, no forbidden character is behind it. -/
theorem Scan.forbidden_of_need {n : Nat} (hn : 0 < n) {c c' : Cursor}
    (h : Scan.need n c = .ok ((), c')) (hr : c.rest = []) : c.forbidden = none := by
  cases hf : c.forbidden with
  | none => rfl
  | some offset =>
      simp only [Scan.need, get_bind, hf, hr, List.take_nil, List.length_nil, hn, if_true] at h
      cases h

/-- A lexer that has begun and not come to the end. -/
structure Lexer.Open (l : Lexer) : Prop where
  started : l.started = true
  ended : l.ended = false
  bound : 0 < l.cursor.bound
  tokens : ∀ t ∈ l.tokens, t.kind ≠ .streamEnd

theorem Lexer.Open.onward {l l' : Lexer} {R : Cursor → Cursor → Prop}
    (hR : ∀ c c', R c c' → c.Before c') (ho : l.Open) (h : l.Onward R l') : l'.Open where
  started := h.started.trans ho.started
  ended := h.ended.trans ho.ended
  bound := by rw [(hR _ _ h.cursor).bound]; exact ho.bound
  tokens t ht := (h.tokens t ht).elim (ho.tokens t) id

namespace Lex

/-- A step that does not begin the stream takes a gap, gives up keys and closes collections. It
takes a token then, or the text ends. -/
theorem step_parts {l l' : Lexer} (hs : l.started = true) (h : step l = .ok ((), l')) :
    ∃ l₁ l₂ l₃ l₄,
    skipGap l.cursor.bound l = .ok ((), l₁) ∧ expireKeys l₁ = .ok ((), l₂) ∧
    closeBlocks l₂.mark.column l₂ = .ok ((), l₃) ∧
      Scan.need 4 l₃.cursor = .ok ((), l₃.cursor) ∧
      (l₃.cursor.rest = [] ∧ streamEnd l₃ = .ok ((), l₄) ∨
        ∃ c more, l₃.cursor.rest = c :: more ∧ tokenAt c more.head? l₃ = .ok ((), l₄)) ∧
        expireKeys l₄ = .ok ((), l') := by
  obtain ⟨_, l₀, hneed, h⟩ := ok_of_bind h
  obtain ⟨c, hc, rfl⟩ := scan_ok hneed
  rw [Scan.stays_need 1 _ _ _ hc, get_bind, if_neg (by simp [hs]), get_bind] at h
  obtain ⟨_, l₁, hgap, h⟩ := ok_of_bind h
  obtain ⟨_, l₂, hexpire, h⟩ := ok_of_bind h
  obtain ⟨place, l₃, hmark, h⟩ := ok_of_bind h
  cases hmark
  obtain ⟨_, l₃, hclose, h⟩ := ok_of_bind h
  obtain ⟨_, l₄, hneed, h⟩ := ok_of_bind h
  obtain ⟨c, hc, rfl⟩ := scan_ok hneed
  obtain rfl := Scan.stays_need 4 _ _ _ hc
  rw [get_bind] at h
  cases hr : l₃.cursor.rest with
  | nil =>
      simp only [hr] at h
      obtain ⟨_, l₄, hend, h⟩ := ok_of_bind h
      exact ⟨l₁, l₂, l₃, l₄, hgap, hexpire, hclose, hc, Or.inl ⟨hr, hend⟩, h⟩
  | cons c more =>
      simp only [hr] at h
      obtain ⟨_, l₄, htoken, h⟩ := ok_of_bind h
      exact ⟨l₁, l₂, l₃, l₄, hgap, hexpire, hclose, hc, Or.inr ⟨c, more, hr, htoken⟩, h⟩

/-- A step comes to the end of a text without forbidden characters, or takes a character. -/
theorem step_open_ends {l l' : Lexer} (ho : l.Open) (h : step l = .ok ((), l')) :
    l'.ended = true ∧ l.cursor.forbidden = none ∨ l.Onward Cursor.Before l' ∧
    l'.cursor.rest.length < l.cursor.rest.length := by
  obtain ⟨l₁, l₂, l₃, l₄, hgap, hexpire, hclose, hneed, h, hlast⟩ := step_parts ho.started h
  have h₂ : l.Onward Cursor.Before l₂ :=
    Trans.trans ((keeps_skipGap _).rel hgap) (reconsiders_expireKeys.rests.keeps.rel hexpire)
  have h₃ : l.Onward Cursor.Before l₃ := Trans.trans h₂ ((rests_closeBlocks _).keeps.rel hclose)
  rcases h with ⟨hr, hend⟩ | ⟨c, more, hr, htoken⟩
  · have he := ended_streamEnd hend
    obtain ⟨_, rfl⟩ := reconsiders_expireKeys.rel hlast
    have hf := Scan.forbidden_of_need (by decide) hneed hr
    rw [h₃.cursor.forbidden] at hf
    exact Or.inl ⟨he, hf⟩
  · have hpast := past_tokenAt hr (ho.onward (fun _ _ h => h) h₃).bound htoken
    have hpast' :=
      hpast.comp (fun _ _ _ h h' => by cases h'; exact h) (reconsiders_expireKeys.rests.rel hlast)
    refine Or.inr ⟨Trans.trans h₃ (hpast'.imp fun _ _ h => h.toBefore), ?_⟩
    exact Nat.lt_of_lt_of_le (hpast'.cursor.taken (by rw [hr]; exact List.cons_ne_nil _ _))
      h₃.cursor.rest

end Lex

/-! ## Runs -/

/-- What a run that is long enough comes to: the end of a text without forbidden characters, or a
problem in front of the end. -/
structure Lexer.Concluded (forbidden : Option Nat) (l : Lexer) (problem : Option Problem) :
    Prop where
  allowed : problem = none → forbidden = none
  unended : problem ≠ none → ∀ t ∈ l.tokens, t.kind ≠ .streamEnd

theorem Lexer.run_open : (fuel : Nat) → {l : Lexer} → l.Open → l.cursor.rest.length < fuel →
    Lexer.Concluded l.cursor.forbidden (Lexer.run fuel l).1 (Lexer.run fuel l).2
  | 0, _, _, h => absurd h (Nat.not_lt_zero _)
  | fuel + 1, l, ho, hf => by
      rw [Lexer.run, if_neg (by simp [ho.ended])]
      cases hs : Lex.step l with
      | error problem => exact ⟨(fun h => by cases h), fun _ => ho.tokens⟩
      | ok r =>
          obtain ⟨⟨⟩, l'⟩ := r
          simp only
          rcases Lex.step_open_ends ho hs with ⟨he, hn⟩ | ⟨hl, hlt⟩
          · have hrun : Lexer.run fuel l' = (l', none) := by
              cases fuel with
              | zero => rfl
              | succ fuel => rw [Lexer.run, if_pos he]
            rw [hrun]
            exact ⟨fun _ => hn, fun h => absurd rfl h⟩
          · rw [← hl.cursor.forbidden]
            exact run_open fuel (ho.onward (fun _ _ h => h) hl) (by omega)

namespace Cursor

theorem length_readable (done block : List Char) (room offset : Nat) (cs : List Char) :
    (readable done block room offset cs).1.length ≤ done.length + block.length + cs.length := by
  induction cs generalizing done block room offset with
  | nil => simp [readable]
  | cons c cs ih =>
      unfold readable
      split
      · split
        · have := ih done (c :: block) (room - c.utf8Size) (offset + c.utf8Size)
          simp only [List.length_cons] at this ⊢
          omega
        · simp only [List.length_reverse]
          omega
      · split
        · have := ih (block ++ done) [c] (blockSize - c.utf8Size) (offset + c.utf8Size)
          simp only [List.length_append, List.length_cons, List.length_nil] at this ⊢
          omega
        · simp only [List.length_reverse, List.length_append]
          omega

theorem allowed_of_readable {done block : List Char} {room offset : Nat} {cs : List Char}
    (h : (readable done block room offset cs).2 = none) : ∀ c ∈ cs, isAllowed c = true := by
  induction cs generalizing done block room offset with
  | nil => simp
  | cons c cs ih =>
      unfold readable at h
      split at h
      · split at h
        · exact List.forall_mem_cons.mpr ⟨‹_›, ih h⟩
        · cases h
      · split at h
        · exact List.forall_mem_cons.mpr ⟨‹_›, ih h⟩
        · cases h

end Cursor

theorem Lex.open_streamStart {text : List Char} {l : Lexer}
    (h : Lex.step (.ofText text) = .ok ((), l)) : l.Open ∧ l.cursor = .ofText text := by
  obtain ⟨_, l₁, h₁, h⟩ := ok_of_bind h
  obtain ⟨c, hc, rfl⟩ := scan_ok h₁
  rw [Scan.stays_need 1 _ _ _ hc] at h
  rw [get_bind] at h
  obtain ⟨_, l₂, h₂, h⟩ := ok_of_bind h
  cases h₂
  obtain ⟨_, rfl⟩ := reconsiders_expireKeys.rel h
  refine ⟨⟨rfl, rfl, Nat.succ_pos _, fun t ht => ?_⟩, rfl⟩
  obtain rfl := List.mem_singleton.mp ht
  simp

theorem Lexer.run_ofText (text : List Char) :
    Lexer.Concluded (Cursor.ofText text).forbidden (Lexer.run (text.length + 2) (.ofText text)).1
      (Lexer.run (text.length + 2) (.ofText text)).2 := by
  rw [Lexer.run, if_neg (by simp [Lexer.ofText])]
  cases hs : Lex.step (.ofText text) with
  | error problem => exact ⟨(fun h => by cases h), fun _ t ht => absurd ht List.not_mem_nil⟩
  | ok r =>
      obtain ⟨⟨⟩, l⟩ := r
      obtain ⟨ho, hc⟩ := Lex.open_streamStart hs
      have hl := Cursor.length_readable [] [] Cursor.blockSize 0 text
      have hf : l.cursor.rest.length < text.length + 1 := by
        rw [hc]
        simpa [Cursor.ofText, Nat.lt_succ_iff] using hl
      simpa [hc] using Lexer.run_open (text.length + 1) ho hf

/-- A text that is read to its end has no forbidden characters, and no end is found of one that is
not. -/
theorem Tokens.ofText_concluded (text : List Char) :
    ((Tokens.ofText text).problem = none → ∀ c ∈ text, isAllowed c = true) ∧
      ((Tokens.ofText text).problem ≠ none →
        ∀ t ∈ (Tokens.ofText text).list, t.kind ≠ .streamEnd) := by
  obtain ⟨ha, hu⟩ := Lexer.run_ofText text
  refine ⟨fun h => Cursor.allowed_of_readable (ha h), fun h t ht => ?_⟩
  exact hu h t (List.mem_reverse.mp (List.mem_of_mem_take ht))

end BootConfig.Yaml
