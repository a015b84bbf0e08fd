import BootConfig.Proofs.Yaml.Token.Sound

/-!
# No token is lost

A token from which a key may begin is given up no later than at the end of the text, so that behind
the last step no possible key holds any token back. Where there is no problem, the tokens reach to
the end of the text, and the end of the stream is the last of them and nowhere else.
-/

namespace BootConfig.Yaml

open Steps

/-! ## Possible keys -/

namespace Lexer

/-- No possible key is new. -/
def Sheds (l l' : Lexer) : Prop := ∀ k ∈ l'.pending, k ∈ l.pending

/-- A new possible key begins where the lexer was. -/
def Remembers (l l' : Lexer) : Prop := ∀ k ∈ l'.pending, k ∈ l.pending ∨ k.mark = l.mark

/-- The possible keys begin in front of the lexer. -/
def Beyond (l : Lexer) : Prop := ∀ k ∈ l.pending, k.mark.Precedes l.mark

instance : Std.Refl Sheds := ⟨fun _ _ => id⟩

instance : Trans Sheds Sheds Sheds := ⟨fun h h' k hk => h k (h' k hk)⟩

variable {l l' l'' : Lexer}

theorem Forgets.sheds (h : l.Forgets l') : l.Sheds l' := by
  obtain ⟨pending, hp, rfl⟩ := h
  exact fun k hk => hp.subset hk

theorem Sheds.remembers (h : l.Sheds l') : l.Remembers l' := fun k hk => Or.inl (h k hk)

theorem Remembers.sheds (h : l.Remembers l') (h' : l'.Sheds l'') : l.Remembers l'' :=
  fun k hk => h k (h' k hk)

theorem Beyond.before (hl : l.Beyond) (h : l.Sheds l') (hc : l.cursor.Before l'.cursor) :
    l'.Beyond := by
  intro k hk
  have hk' := hl k (h k hk)
  rcases hc.place with ⟨hm, _⟩ | hm
  · rw [Lexer.mark, hm]
    exact hk'
  · exact hk'.trans hm

theorem Beyond.past (hl : l.Beyond) (h : l.Remembers l') (hc : l.cursor.Past l'.cursor)
    (hr : l.cursor.rest ≠ []) : l'.Beyond := by
  intro k hk
  have hm := hc.precedes hr
  rcases h k hk with hk | hk
  · exact (hl k hk).trans hm
  · rw [hk]
    exact hm

end Lexer

namespace Lex

variable {α β : Type} {x : Lex α} {f : α → Lex β}

abbrev Sheds (x : Lex α) : Prop := Along Lexer.Sheds x

abbrev Remembers (x : Lex α) : Prop := Along Lexer.Remembers x

theorem Sheds.remembers (hx : Sheds x) : Remembers x := hx.imp fun _ _ h => h.remembers

theorem Remembers.bind (hx : Remembers x) (hf : ∀ a, Sheds (f a)) : Remembers (x >>= f) :=
  Along.bind_of (fun _ _ _ h h' => h.sheds h') hx hf

theorem sheds_scan (s : Scan α) : Sheds (scan s) := fun l a l' h => by
  obtain ⟨c, _, rfl⟩ := scan_ok h
  exact fun _ => id

theorem sheds_mark : Sheds mark := fun _ _ _ h => by
  cases h
  exact fun _ => id

theorem sheds_inFlow : Sheds inFlow := fun _ _ _ h => by
  cases h
  exact fun _ => id

theorem sheds_emit (t : Token) : Sheds (emit t) := .modify fun _ _ => id

theorem sheds_allowKey (allowed : Bool) : Sheds (allowKey allowed) := .modify fun _ _ => id

theorem sheds_expireKeys : Sheds expireKeys := forgets_expireKeys.imp fun _ _ h => h.sheds

theorem sheds_dropKey : Sheds dropKey := forgets_dropKey.imp fun _ _ h => h.sheds

theorem remembers_saveKey : Remembers saveKey := by
  intro l u l' h
  unfold saveKey at h
  rw [get_bind] at h
  split at h
  · obtain ⟨_, l₁, hdrop, h⟩ := ok_of_bind h
    have hdrop := sheds_dropKey.rel hdrop
    cases h
    intro k hk
    rcases List.mem_cons.mp hk with rfl | hk
    · exact Or.inr rfl
    · exact Or.inl (hdrop k hk)
  · cases h
    exact fun _ => Or.inl

theorem sheds_openBlock (column : Nat) (number : Option Nat) (kind : Token.Kind) (place : Mark) :
    Sheds (openBlock column number kind place) := .modify fun l => by
  split
  · cases number <;> exact fun _ => id
  · exact fun _ => id

theorem sheds_openBlockHere (kind : Token.Kind) (otherwise : Cause) :
    Sheds (openBlockHere kind otherwise) := .get fun _ =>
  .ite (fun _ => .andThen (fun _ => .throw _) fun _ => sheds_openBlock _ _ _ _) fun _ => .pure _

theorem sheds_closeBlocks (column : Int) : Sheds (closeBlocks column) := .modify fun l => by
  split <;> exact fun _ => id

theorem keeps_closeBlocks (column : Int) :
    Along (fun l l' : Lexer => ∀ t ∈ l.tokens, t ∈ l'.tokens) (closeBlocks column) :=
  .modify fun l => by
    split
    · exact fun _ => id
    · exact fun t ht => List.mem_append_right _ ht

theorem sheds_skipGap : (fuel : Nat) → Sheds (skipGap fuel)
  | 0 => .pure _
  | fuel + 1 => .bind (sheds_scan _) fun _ =>
      .bind (.get fun _ => sheds_scan _) fun _ => .bind (sheds_scan _) fun _ =>
      .ite (fun _ => .bind (sheds_scan _) fun _ => .bind sheds_inFlow fun _ =>
        .andThen (fun _ => sheds_allowKey _) fun _ =>
        sheds_skipGap fuel) fun _ => .pure _

/-! ## Tokens -/

theorem sheds_indicator (kind : Token.Kind) (length : Nat) : Sheds (indicator kind length) :=
  .bind sheds_mark fun _ => .bind (sheds_scan _) fun _ => .bind sheds_mark fun _ => sheds_emit _

theorem sheds_emitted (s : Scan Token) : Sheds (scan s >>= emit) := .bind (sheds_scan s) sheds_emit

theorem sheds_directive : Sheds directive :=
  .bind (sheds_closeBlocks _) fun _ => .bind sheds_dropKey fun _ =>
    .bind (sheds_allowKey _) fun _ => sheds_emitted _

theorem sheds_documentMark (kind : Token.Kind) : Sheds (documentMark kind) :=
  .bind (sheds_closeBlocks _) fun _ => .bind sheds_dropKey fun _ =>
    .bind (sheds_allowKey _) fun _ => sheds_indicator _ _

theorem remembers_flowStart (kind : Token.Kind) : Remembers (flowStart kind) :=
  remembers_saveKey.bind fun _ => .bind (.modify fun _ _ => id) fun _ =>
    .bind (sheds_allowKey _) fun _ => sheds_indicator _ _

theorem sheds_flowEnd (kind : Token.Kind) : Sheds (flowEnd kind) :=
  .bind sheds_dropKey fun _ => .bind (.modify fun _ _ => id) fun _ =>
    .bind (sheds_allowKey _) fun _ => sheds_indicator _ _

theorem sheds_flowEntry : Sheds flowEntry :=
  .bind sheds_dropKey fun _ => .bind (sheds_allowKey _) fun _ => sheds_indicator _ _

theorem sheds_blockEntry : Sheds blockEntry :=
  .bind (sheds_openBlockHere _ _) fun _ => .bind sheds_dropKey fun _ =>
    .bind (sheds_allowKey _) fun _ => sheds_indicator _ _

theorem sheds_keyIndicator : Sheds keyIndicator :=
  .bind (sheds_openBlockHere _ _) fun _ => .bind sheds_dropKey fun _ => .bind sheds_inFlow fun _ =>
    .bind (sheds_allowKey _) fun _ => sheds_indicator _ _

theorem sheds_valueIndicator : Sheds valueIndicator := .get fun l => by
  cases l.key? with
  | some k =>
      exact .bind (.modify fun _ _ => id) fun _ => .bind (sheds_openBlock _ _ _ _) fun _ =>
        .bind (.modify fun _ _ hk => List.mem_of_mem_tail hk) fun _ =>
          .bind (sheds_allowKey _) fun _ => sheds_indicator _ _
  | none =>
      exact .bind (sheds_openBlockHere _ _) fun _ =>
        .bind (sheds_allowKey _) fun _ => sheds_indicator _ _

theorem remembers_keyToken (s : Scan Token) : Remembers (keyToken s) :=
  remembers_saveKey.bind fun _ => .bind (sheds_allowKey _) fun _ => sheds_emitted s

theorem sheds_blockScalar (folded : Bool) : Sheds (blockScalar folded) :=
  .bind sheds_dropKey fun _ => .bind (sheds_allowKey _) fun _ => .get fun _ => sheds_emitted _

theorem remembers_plainScalar : Remembers plainScalar :=
  remembers_saveKey.bind fun _ => .bind (sheds_allowKey _) fun _ => .get fun _ =>
    .bind (sheds_scan _) fun _ =>
    .bind (sheds_emit _) fun _ => .ite (fun _ => sheds_allowKey _) fun _ => .pure _

theorem remembers_tokenAt (c : Char) (next : Option Char) : Remembers (tokenAt c next) := by
  apply Along.get
  intro l
  refine .ite (fun _ => sheds_directive.remembers) fun _ =>
    .ite (fun _ => (sheds_documentMark _).remembers) fun _ => ?_
  refine .ite (fun _ => remembers_flowStart _) fun _ =>
    .ite (fun _ => remembers_flowStart _) fun _ => ?_
  refine .ite (fun _ => (sheds_flowEnd _).remembers) fun _ =>
    .ite (fun _ => (sheds_flowEnd _).remembers) fun _ => ?_
  refine .ite (fun _ => sheds_flowEntry.remembers) fun _ =>
    .ite (fun _ => sheds_blockEntry.remembers) fun _ => ?_
  refine .ite (fun _ => sheds_keyIndicator.remembers) fun _ =>
    .ite (fun _ => sheds_valueIndicator.remembers) fun _ => ?_
  refine .ite (fun _ => remembers_keyToken _) fun _ =>
    .ite (fun _ => remembers_keyToken _) fun _ => ?_
  refine .ite (fun _ => remembers_keyToken _) fun _ => ?_
  refine .ite (fun _ => (sheds_blockScalar _).remembers) fun _ =>
    .ite (fun _ => (sheds_blockScalar _).remembers) fun _ => ?_
  refine .ite (fun _ => remembers_keyToken _) fun _ =>
    .ite (fun _ => remembers_keyToken _) fun _ => ?_
  exact .ite (fun _ => remembers_plainScalar) fun _ => .throw _

end Lex

/-! ## The end of the text -/

/-- A lexer at the end of its text, with no possible key left that would hold a token back. -/
structure Lexer.Final (text : List Char) (l : Lexer) : Prop where
  tidy : l.Tidy text
  rest : l.cursor.rest = []
  pending : l.pending = []
  tokens : ∃ older, l.tokens = ⟨.streamEnd, l.mark, l.mark⟩ :: older ∧ older ≠ [] ∧
    ∀ t ∈ older, t.kind ≠ .streamEnd

namespace Lex

variable {text : List Char} {l l' : Lexer}

theorem pending_streamStart (h : step (.ofText text) = .ok ((), l)) : l.pending = [] := by
  obtain ⟨_, l₁, hneed, h⟩ := ok_of_bind h
  obtain ⟨c, hc, rfl⟩ := scan_ok hneed
  rw [Scan.stays_need 1 _ _ _ hc, get_bind] at h
  obtain ⟨_, l₂, hstart, h⟩ := ok_of_bind h
  cases hstart
  obtain ⟨pending, hp, rfl⟩ := forgets_expireKeys.rel h
  exact List.sublist_nil.mp hp

/-- Keys that do not end on their line, or within reach, are given up. -/
theorem expireKeys_ok (h : expireKeys l = .ok ((), l')) :
    l' = { l with pending := l.pending.filter fun k => !k.isStale l.mark } := by
  unfold expireKeys at h
  rw [get_bind] at h
  split at h
  · cases hk : l.pending.find? fun k => k.required && k.isStale l.mark with
    | some k =>
        simp only [hk] at h
        exact absurd h fails_missingColon
    | none =>
        simp only [hk] at h
        cases h
        rfl
  · rename_i hany
    cases h
    rw [List.filter_eq_self.mpr]
    intro k hk
    simp only [List.any_eq_true, not_exists, not_and] at hany
    simpa using hany k hk

/-- The end of the text counts as the start of a line, and every possible key begins in a line
above. -/
theorem stale_streamEnd (ho : l.Open) (hs : l.Sound text) (hl : l.Beyond)
    (h : streamEnd l = .ok ((), l')) :
    l'.cursor.rest = l.cursor.rest ∧ (∀ k ∈ l'.pending, k.isStale l'.mark = true) ∧
      ∃ older, l'.tokens = ⟨.streamEnd, l'.mark, l'.mark⟩ :: older ∧ older ≠ [] ∧
        ∀ t ∈ older, t.kind ≠ .streamEnd := by
  obtain ⟨_, l₁, hmark, h⟩ := ok_of_bind h
  have h₁ : l₁.cursor.rest = l.cursor.rest ∧ l₁.tokens = l.tokens ∧
      ∀ k ∈ l₁.pending, k.mark.line < l₁.mark.line := by
    cases hmark
    simp only
    split
    · rename_i hcolumn
      refine ⟨rfl, rfl, fun k hk => ?_⟩
      rcases hl k hk with hline | ⟨_, hc⟩
      · exact hline
      · exact absurd hc (by rw [hcolumn]; exact Nat.not_lt_zero _)
    · refine ⟨rfl, rfl, fun k hk => ?_⟩
      rcases hl k hk with hline | ⟨hline, _⟩
      · exact Nat.lt_succ_of_lt hline
      · exact Nat.lt_succ_of_le (Nat.le_of_eq hline)
  obtain ⟨hrest, htokens, hkeys⟩ := h₁
  obtain ⟨_, l₂, hclose, h⟩ := ok_of_bind h
  have hclosed := (rests_closeBlocks _).rel hclose
  have hsheds := (sheds_closeBlocks _).rel hclose
  have hkept := (keeps_closeBlocks _).rel hclose
  obtain ⟨_, l₃, hdrop, h⟩ := ok_of_bind h
  obtain ⟨pending, hp, rfl⟩ := forgets_dropKey.rel hdrop
  obtain ⟨_, l₄, hallow, h⟩ := ok_of_bind h
  cases hallow
  obtain ⟨here, l₄, hmark, h⟩ := ok_of_bind h
  cases hmark
  obtain ⟨_, l₄, hemit, h⟩ := ok_of_bind h
  cases hemit
  cases h
  refine ⟨(congrArg Cursor.rest hclosed.cursor).symm.trans hrest, fun k hk =>
    ?_, _, rfl, fun hnil => ?_, fun t ht => ?_⟩
  · have hline := hkeys k (hsheds k (hp.subset hk))
    rw [Lexer.mark, hclosed.cursor] at hline
    simp only [PendingKey.isStale, Bool.or_eq_true, decide_eq_true_eq]
    exact Or.inl hline
  · -- the oldest token is never given back
    obtain ⟨t, ht, _⟩ := hs.tidy.first
    rw [← htokens] at ht
    have hm := hkept t (List.mem_of_mem_getLast? ht)
    rw [show l₂.tokens = [] from hnil] at hm
    cases hm
  · rcases hclosed.tokens t ht with ht | ht
    · exact ho.tokens t (htokens ▸ ht)
    · exact ht

/-- A step comes to the end with all tokens released, or leaves the possible keys behind. -/
theorem beyond_step (ho : l.Open) (hs : l.Sound text) (hl : l.Beyond) (h : step l = .ok ((), l')) :
    l'.ended = true ∧ l'.Final text ∨ l'.ended = false ∧ l'.Sound text ∧ l'.Beyond := by
  obtain ⟨htidy, hsound⟩ := sound_step ho hs h
  obtain ⟨l₁, l₂, l₃, l₄, hgap, hexpire, hclose, _, h, hlast⟩ := step_parts ho.started h
  have hk₁ := (keeps_skipGap _).rel hgap
  have hk₂ := reconsiders_expireKeys.rests.keeps.rel hexpire
  have hk₃ := (rests_closeBlocks _).keeps.rel hclose
  have ho₃ :=
    ((ho.onward (fun _ _ h => h) hk₁).onward (fun _ _ h => h) hk₂).onward (fun _ _ h => h) hk₃
  have hs₃ :=
    sound_closeBlocks
      ((forgets_expireKeys.rel hexpire).sound (((skips_skipGap _).rel hgap).sound hs)) hclose
  have h₁ := hl.before ((sheds_skipGap _).rel hgap) hk₁.cursor
  have h₂ := h₁.before (sheds_expireKeys.rel hexpire) hk₂.cursor
  have h₃ := h₂.before ((sheds_closeBlocks _).rel hclose) hk₃.cursor
  rcases h with ⟨hr, hend⟩ | ⟨c, more, hr, htoken⟩
  · have he := ended_streamEnd hend
    obtain ⟨hrest, hstale, htokens⟩ := stale_streamEnd ho₃ hs₃ h₃ hend
    rw [expireKeys_ok hlast] at htidy ⊢
    refine Or.inl ⟨he, htidy, hrest.trans hr, ?_, htokens⟩
    apply List.filter_eq_nil_iff.mpr
    intro k hk
    simp [hstale k hk]
  · have hpast := past_tokenAt hr ho₃.bound htoken
    have h₄ :=
      h₃.past ((remembers_tokenAt _ _).rel htoken) hpast.cursor
        (by rw [hr]; exact List.cons_ne_nil _ _)
    have hk₅ := reconsiders_expireKeys.rests.keeps.rel hlast
    have hopen : l'.ended = false := (hk₅.ended.trans hpast.ended).trans ho₃.ended
    exact Or.inr ⟨hopen, hsound hopen, h₄.before (sheds_expireKeys.rel hlast) hk₅.cursor⟩

end Lex

/-! ## Runs -/

theorem Lexer.run_final {text : List Char} : (fuel : Nat) → {l : Lexer} → l.Open → l.Sound text →
    l.Beyond → l.cursor.rest.length < fuel → (Lexer.run fuel l).2 = none →
    (Lexer.run fuel l).1.Final text
  | 0, _, _, _, _, hf, _ => absurd hf (Nat.not_lt_zero _)
  | fuel + 1, l, ho, hs, hl, hf, hn => by
      rw [Lexer.run, if_neg (by simp [ho.ended])] at hn ⊢
      cases h : Lex.step l with
      | error problem =>
          rw [h] at hn
          cases hn
      | ok r =>
          obtain ⟨⟨⟩, l'⟩ := r
          rw [h] at hn
          rcases Lex.beyond_step ho hs hl h with ⟨he, hfinal⟩ | ⟨he, hs', hl'⟩
          · have hrun : Lexer.run fuel l' = (l', none) := by
              cases fuel with
              | zero => rfl
              | succ fuel => rw [Lexer.run, if_pos he]
            simp only [hrun]
            exact hfinal
          · rcases Lex.step_open_ends ho h with ⟨he', _⟩ | ⟨hk, hlt⟩
            · rw [he] at he'
              cases he'
            · exact run_final fuel (ho.onward (fun _ _ h => h) hk) hs' hl' (by omega) hn

/-! ## Tokens of a text -/

/-- Tokens up to the end of the stream, which is the last of them and nowhere else. -/
structure Tokens.Reach (last : Token) (ts : List Token) : Prop where
  kind : last.kind = .streamEnd
  split : ∃ front, ts = front ++ [last] ∧ ∀ t ∈ front, t.kind ≠ .streamEnd

theorem Lexer.Final.reach {text : List Char} {l : Lexer} (h : l.Final text) : ∃ first ts last,
    l.tokens.reverse.take l.released = first :: ts ∧ first.kind ≠ .streamEnd ∧
    Tokens.Reach last ts ∧ last.start.offset = bytes text := by
  obtain ⟨older, htokens, hne, hk⟩ := h.tokens
  obtain ⟨text', htext, ho⟩ := h.tidy.place
  rw [h.rest, List.append_nil] at htext
  obtain ⟨first, ts, hfirst⟩ := List.exists_cons_of_ne_nil (mt List.reverse_eq_nil_iff.mp hne)
  have hk' : ∀ t ∈ first :: ts, t.kind ≠ .streamEnd :=
    fun t ht => hk t (List.mem_reverse.mp (hfirst ▸ ht))
  have hlist : l.tokens.reverse = first :: (ts ++ [⟨.streamEnd, l.mark, l.mark⟩]) := by
    rw [htokens, List.reverse_cons, hfirst]; rfl
  have hreleased : l.released = l.tokens.reverse.length := by
    rw [Lexer.released, h.pending, List.length_reverse, ← h.tidy.count]
    rfl
  refine ⟨first, ts ++ [⟨.streamEnd, l.mark, l.mark⟩], ⟨.streamEnd, l.mark, l.mark⟩, ?_,
    hk' first (by simp), ⟨rfl, ts, rfl, ?_⟩, ?_⟩
  · rw [hreleased, List.take_length, hlist]
  · exact fun t ht => hk' t (List.mem_cons_of_mem _ ht)
  · rw [htext]
    exact ho

/-- Where there is no problem, the tokens are those of the whole text. -/
theorem Tokens.reach_ofText {text : List Char} (h : (Tokens.ofText text).problem = none) :
    ∃ first ts last,
    (Tokens.ofText text).list = first :: ts ∧ first.kind ≠ .streamEnd ∧ Tokens.Reach last ts ∧
    last.start.offset = bytes text := by
  have hall := (Tokens.ofText_concluded text).1 h
  unfold Tokens.ofText at h ⊢
  apply Lexer.Final.reach
  rw [Lexer.run, if_neg (by simp [Lexer.ofText])] at h ⊢
  cases hs : Lex.step (.ofText text) with
  | error problem =>
      rw [hs] at h
      cases h
  | ok r =>
      obtain ⟨⟨⟩, l⟩ := r
      rw [hs] at h
      obtain ⟨ho, hc⟩ := Lex.open_streamStart hs
      refine Lexer.run_final _ ho (Lex.sound_streamStart hall hs) (fun k hk => ?_) ?_ h
      · rw [Lex.pending_streamStart hs] at hk
        cases hk
      · rw [hc, Cursor.ofText_of_allowed hall]
        exact Nat.lt_succ_self _

end BootConfig.Yaml
